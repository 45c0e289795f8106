import Xv6Kernel.ProcSystem

/-!
# What one step of the kernel can do

`StepOk` lists the successful steps with their guards and resulting states,
and `step_ok` shows that the list is complete.  Every invariant of the process
system is proved by cases on `StepOk`, so a change to one action of
`ProcSystem` changes one constructor here.
-/

namespace Xv6Kernel

open TraceExecution Kernel

variable {C : Type} [DecidableEq C]

namespace Kernel

omit [DecidableEq C] in
theorem current_eq_some {s : Kernel C} {c : C} {p : Slot} :
    s.current c = some p ↔ s.sched c = .switched p := by
  unfold current
  cases s.sched c <;> simp

omit [DecidableEq C] in
theorem currentAt_eq_some {s : Kernel C} {c : C} {pc : Pc} {p : Slot} :
    s.currentAt c pc = some p ↔
      s.sched c = .switched p ∧ s.thread p = ⟨pc, false⟩ := by
  unfold currentAt
  rw [Option.filter_eq_some_iff, current_eq_some]
  simp

omit [DecidableEq C] in
theorem chosen_eq_some {s : Kernel C} {c : C} {q : Slot} (hchosen : s.chosen c = some q) :
    ∃ p : Slot, s.sched c = .scan p.val ∧ (s.proc p).state = .runnable ∧
      q = highestp s.proc p := by
  unfold chosen at hchosen
  split at hchosen
  next p hsched =>
    split at hchosen
    next hlt =>
      split at hchosen
      next hrun =>
        simp only [Option.some.injEq] at hchosen
        exact ⟨⟨p, hlt⟩, hsched, hrun, hchosen.symm⟩
      next => simp at hchosen
    next => simp at hchosen
  next => simp at hchosen

@[simp] def takeLock (s : Kernel C) (c : C) : Kernel C :=
  { s with lock := some c, ncli := Function.update s.ncli c (s.ncli c + 1) }

@[simp] def dropLock (s : Kernel C) (c : C) : Kernel C :=
  { s with lock := none, ncli := Function.update s.ncli c (s.ncli c - 1) }

/-- The successful steps of a CPU, with the guards that enable them and the
states they lead to. -/
inductive StepOk (source : SchedSource) (s : Kernel C) (c : C) :
    Action → Kernel C → Prop
  | userinitAlloc {p : Slot} {k g : Page}
      (hsched : s.sched c = .boot) (hlock : s.lock = none)
      (hfind : findUnused s.proc = some p) :
      StepOk source s c (.userinitAlloc (some k) (some g))
        { ((s.setProc p { (s.proc p).embryo s.nextpid with
            kstack := some k, pgdir := some g }).setThread p ⟨.forkret, false⟩
          ).setSched c (.booting p) with
          nextpid := succPid s.nextpid
          initproc := some p }
  | userinitPublish {p : Slot}
      (hsched : s.sched c = .booting p) (hlock : s.lock = none) :
      StepOk source s c .userinitPublish
        ((s.setProc p { s.proc p with state := .runnable }).setSched c .start)
  | acquirePtable (hsched : s.sched c = .start) (hlock : s.lock = none) :
      StepOk source s c .acquirePtable ((s.takeLock c).setSched c (.scan 0))
  | skip {p : Slot} (hsched : s.sched c = .scan p.val)
      (hstate : (s.proc p).state ≠ .runnable) :
      StepOk source s c .skip (s.setSched c (.scan (p.val + 1)))
  | dispatch {p : Slot} (hsched : s.sched c = .scan p.val)
      (hstate : (s.proc p).state = .runnable)
      (hkstack : (s.proc (highestp s.proc p)).kstack ≠ none)
      (hpgdir : (s.proc (highestp s.proc p)).pgdir ≠ none) :
      StepOk source s c (.dispatch (highestp s.proc p))
        (((s.setCpuProc c (some (highestp s.proc p))).setProc
          (highestp s.proc p)
          { s.proc (highestp s.proc p) with state := .running }).setSched c
            (.switched (highestp s.proc p)))
  | afterSwtch {p : Slot} (hsched : s.sched c = .returned p) :
      StepOk source s c .afterSwtch
        (({ s with proc := age source s.proc }.setCpuProc c none).setSched c
          (.scan (p.val + 1)))
  | releasePtable (hsched : s.sched c = .scan nproc)
      (hlock : s.lock = some c) :
      StepOk source s c .releasePtable ((s.dropLock c).setSched c .start)
  | forkret {p : Slot} (hsched : s.sched c = .switched p)
      (hthread : s.thread p = ⟨.forkret, false⟩) (hlock : s.lock = some c) :
      StepOk source s c .forkret ((s.dropLock c).setPc p .elsewhere)
  | yield {p : Slot} (hsched : s.sched c = .switched p)
      (hthread : (s.thread p).inYield = false)
      (hstate : (s.proc p).state = .running) (hlock : s.lock = none)
      (hcli : s.ncli c = 0) :
      StepOk source s c .yield
        ((((s.takeLock c).setProc p { s.proc p with state := .runnable }
          ).setInYield p true).setSched c (.returned p))
  | yieldReturn {p : Slot} (hsched : s.sched c = .switched p)
      (hthread : (s.thread p).inYield = true) (hlock : s.lock = some c) :
      StepOk source s c .yieldReturn ((s.dropLock c).setInYield p false)
  | sleep {p : Slot} {chan : Chan} {lk : ℕ} {ncli : C → ℤ}
      (hsched : s.sched c = .switched p)
      (hthread : s.thread p = ⟨.elsewhere, false⟩) (hlock : s.lock = none)
      (hspin : s.spin lk = some c) :
      StepOk source s c (.sleep chan lk)
        { ((s.setProc p { s.proc p with
            chan := some chan, state := .sleeping }).setPc p (.sleepSched lk)
          ).setSched c (.returned p) with
          lock := some c
          ncli := ncli
          spin := Function.update s.spin lk none }
  | sleepReturn {p : Slot} {lk : ℕ} (hsched : s.sched c = .switched p)
      (hthread : s.thread p = ⟨.sleepSched lk, false⟩)
      (hlock : s.lock = some c) :
      StepOk source s c .sleepReturn
        (((s.setProc p { s.proc p with chan := none }).dropLock c).setPc p
          (.sleepAcquire lk))
  | sleepAcquire {p : Slot} {lk : ℕ} {ncli : C → ℤ}
      (hsched : s.sched c = .switched p)
      (hthread : s.thread p = ⟨.sleepAcquire lk, false⟩)
      (hspin : s.spin lk = none) :
      StepOk source s c .sleepAcquire
        { s.setPc p .elsewhere with
          spin := Function.update s.spin lk (some c)
          ncli := ncli }
  | forkAllocFail {p : Slot} (hsched : s.sched c = .switched p)
      (hthread : s.thread p = ⟨.elsewhere, false⟩) (hlock : s.lock = none)
      (hfind : findUnused s.proc = none) :
      StepOk source s c (.forkAlloc none) s
  | forkAlloc {p np : Slot} (hsched : s.sched c = .switched p)
      (hthread : s.thread p = ⟨.elsewhere, false⟩) (hlock : s.lock = none)
      (hfind : findUnused s.proc = some np) :
      StepOk source s c (.forkAlloc (some np))
        { (s.setProc np ((s.proc np).embryo s.nextpid)).setPc p
            (.forkKalloc np) with
          nextpid := succPid s.nextpid }
  | forkKallocFail {p np : Slot} (hsched : s.sched c = .switched p)
      (hthread : s.thread p = ⟨.forkKalloc np, false⟩) :
      StepOk source s c (.forkKalloc none)
        ((s.setProc np { s.proc np with kstack := none, state := .unused }
          ).setPc p .elsewhere)
  | forkKalloc {p np : Slot} {k : Page} (hsched : s.sched c = .switched p)
      (hthread : s.thread p = ⟨.forkKalloc np, false⟩) :
      StepOk source s c (.forkKalloc (some k))
        (((s.setProc np { s.proc np with kstack := some k }).setThread np
          ⟨.forkret, false⟩).setPc p (.forkCopyuvm np))
  | forkCopyuvmFail {p np : Slot} (hsched : s.sched c = .switched p)
      (hthread : s.thread p = ⟨.forkCopyuvm np, false⟩) :
      StepOk source s c (.forkCopyuvm none)
        ((s.setProc np { s.proc np with
          pgdir := none, kstack := none, state := .unused }).setPc p .elsewhere)
  | forkCopyuvm {p np : Slot} {g : Page} (hsched : s.sched c = .switched p)
      (hthread : s.thread p = ⟨.forkCopyuvm np, false⟩) :
      StepOk source s c (.forkCopyuvm (some g))
        ((s.setProc np { s.proc np with pgdir := some g, parent := some p }
          ).setPc p (.forkPublish np))
  | forkPublish {p np : Slot} (hsched : s.sched c = .switched p)
      (hthread : s.thread p = ⟨.forkPublish np, false⟩)
      (hlock : s.lock = none) :
      StepOk source s c .forkPublish
        ((s.setProc np { s.proc np with state := .runnable }).setPc p
          .elsewhere)
  | exit {p : Slot} (hsched : s.sched c = .switched p)
      (hthread : s.thread p = ⟨.elsewhere, false⟩) (hlock : s.lock = none)
      (hinit : s.initproc ≠ some p) :
      StepOk source s c .exit
        (({ s.takeLock c with proc := exitTable p s.initproc s.proc }.setPc p
          .exited).setSched c (.returned p))
  | waitAcquire {p : Slot} (hsched : s.sched c = .switched p)
      (hthread : s.thread p = ⟨.elsewhere, false⟩) (hlock : s.lock = none) :
      StepOk source s c .waitAcquire ((s.takeLock c).setPc p .waitLoop)
  | waitReap {p q : Slot} (hsched : s.sched c = .switched p)
      (hthread : s.thread p = ⟨.waitLoop, false⟩) (hlock : s.lock = some c)
      (hscan : Xv6Kernel.waitScan p s.proc = .reap q) :
      StepOk source s c .waitScan
        (((s.setProc q (s.proc q).reaped).dropLock c).setPc p .elsewhere)
  | waitFail {p : Slot} (hsched : s.sched c = .switched p)
      (hthread : s.thread p = ⟨.waitLoop, false⟩) (hlock : s.lock = some c)
      (hscan : Xv6Kernel.waitScan p s.proc = .fail) :
      StepOk source s c .waitScan ((s.dropLock c).setPc p .elsewhere)
  | waitSleep {p : Slot} (hsched : s.sched c = .switched p)
      (hthread : s.thread p = ⟨.waitLoop, false⟩) (hlock : s.lock = some c)
      (hscan : Xv6Kernel.waitScan p s.proc = .sleep) :
      StepOk source s c .waitScan
        (((s.setProc p { s.proc p with
          chan := some (.proc p), state := .sleeping }).setPc p .waitSched
            ).setSched c (.returned p))
  | waitReturn {p : Slot} (hsched : s.sched c = .switched p)
      (hthread : s.thread p = ⟨.waitSched, false⟩) :
      StepOk source s c .waitReturn
        ((s.setProc p { s.proc p with chan := none }).setPc p .waitLoop)
  | kill {p : Slot} {pid : ℤ} (hsched : s.sched c = .switched p)
      (hthread : s.thread p = ⟨.elsewhere, false⟩) (hlock : s.lock = none) :
      StepOk source s c (.kill pid) { s with proc := (kill pid s.proc).1 }
  | setPriority {p : Slot} {pid newPriority : ℤ}
      (hsched : s.sched c = .switched p)
      (hthread : s.thread p = ⟨.elsewhere, false⟩) (hlock : s.lock = none) :
      StepOk source s c (.setPriority pid newPriority)
        { s with proc := (setPriority pid newPriority s.proc).1 }
  | getPriority {p : Slot} {pid : ℤ} (hsched : s.sched c = .switched p)
      (hthread : s.thread p = ⟨.elsewhere, false⟩) (hlock : s.lock = none) :
      StepOk source s c (.getPriority pid) s
  | wakeup {chan : Chan} (hlock : s.lock = none) :
      StepOk source s c (.wakeup chan)
        { s with proc := wakeup1 (some chan) s.proc }
  | trapKill {p : Slot} (hsched : s.sched c = .switched p)
      (hthread : s.thread p = ⟨.elsewhere, false⟩) :
      StepOk source s c .trapKill
        (s.setProc p { s.proc p with killed := true })
  | spinAcquire {p : Slot} {lk : ℕ} {ncli : C → ℤ}
      (hsched : s.sched c = .switched p)
      (hthread : s.thread p = ⟨.elsewhere, false⟩) (hspin : s.spin lk = none) :
      StepOk source s c (.spinAcquire lk)
        { s with spin := Function.update s.spin lk (some c), ncli := ncli }
  | spinRelease {p : Slot} {lk : ℕ} {ncli : C → ℤ}
      (hsched : s.sched c = .switched p)
      (hthread : s.thread p = ⟨.elsewhere, false⟩)
      (hspin : s.spin lk = some c) :
      StepOk source s c (.spinRelease lk)
        { s with spin := Function.update s.spin lk none, ncli := ncli }

section Inversion

variable {source : SchedSource} {s t : Kernel C} {c : C}

private theorem locked_ok {body : Kernel C → Kernel C}
    (hok : s.locked c body = .ok t) : s.lock = none ∧ t = body s := by
  simp only [locked, bind_eq_ok, ensure_eq_ok, await_eq_ok, pure_eq_ok] at hok
  obtain ⟨_, _, _, hlock, hbody⟩ := hok
  exact ⟨hlock, hbody.symm⟩

private theorem acquirePtable_ok (hok : s.acquirePtable c = .ok t) :
    s.lock = none ∧ t = s.takeLock c := by
  simp only [acquirePtable, bind_eq_ok, ensure_eq_ok, await_eq_ok, pure_eq_ok] at hok
  obtain ⟨_, _, _, hlock, hbody⟩ := hok
  exact ⟨hlock, hbody.symm⟩

private theorem releasePtable_ok (hok : s.releasePtable c = .ok t) :
    s.lock = some c ∧ t = s.dropLock c := by
  simp only [releasePtable, bind_eq_ok, ensure_eq_ok, pure_eq_ok] at hok
  obtain ⟨_, hlock, hbody⟩ := hok
  exact ⟨hlock, hbody.symm⟩

private theorem enterSched_ok {p : Slot} (hok : s.enterSched c p = .ok t) :
    s.lock = some c ∧ t = s.setSched c (.returned p) := by
  simp only [enterSched, bind_eq_ok, ensure_eq_ok, pure_eq_ok] at hok
  obtain ⟨_, hlock, _, _, _, _, hbody⟩ := hok
  exact ⟨hlock, hbody.symm⟩

private theorem userinitAlloc_ok {kstack pgdir : Option Page}
    (hok : s.userinitAlloc c kstack pgdir = .ok t) :
    StepOk source s c (.userinitAlloc kstack pgdir) t := by
  simp only [userinitAlloc, bind_eq_ok, await_eq_ok] at hok
  obtain ⟨_, ⟨hsched, hlock⟩, hok⟩ := hok
  split at hok
  · simp at hok
  · simp at hok
  · simp at hok
  · next p k g hfind =>
    simp only [pure_eq_ok] at hok
    subst t
    exact .userinitAlloc hsched hlock hfind

private theorem userinitPublish_ok (hok : s.userinitPublish c = .ok t) :
    StepOk source s c .userinitPublish t := by
  unfold userinitPublish at hok
  split at hok
  · next p hsched =>
    obtain ⟨hlock, rfl⟩ := locked_ok hok
    exact .userinitPublish hsched hlock
  · simp at hok

private theorem schedAcquire_ok (hok : s.schedAcquire c = .ok t) :
    StepOk source s c .acquirePtable t := by
  simp only [schedAcquire, bind_eq_ok, await_eq_ok, pure_eq_ok] at hok
  obtain ⟨_, hsched, mid, hmid, rfl⟩ := hok
  obtain ⟨hlock, rfl⟩ := acquirePtable_ok hmid
  exact .acquirePtable hsched hlock

private theorem schedSkip_ok (hok : s.schedSkip c = .ok t) : StepOk source s c .skip t := by
  unfold schedSkip at hok
  split at hok
  · next p hsched =>
    split at hok
    · next hlt =>
      simp only [bind_eq_ok, await_eq_ok, pure_eq_ok] at hok
      obtain ⟨_, hstate, rfl⟩ := hok
      exact .skip (p := ⟨p, hlt⟩) hsched hstate
    · simp at hok
  · simp at hok

private theorem schedDispatch_ok {q : Slot} (hok : s.schedDispatch c q = .ok t) :
    StepOk source s c (.dispatch q) t := by
  simp only [schedDispatch, bind_eq_ok, await_eq_ok, ensure_eq_ok, pure_eq_ok] at hok
  obtain ⟨_, hchosen, _, hkstack, _, hpgdir, rfl⟩ := hok
  obtain ⟨p, hsched, hstate, rfl⟩ := chosen_eq_some hchosen
  exact .dispatch hsched hstate hkstack hpgdir

private theorem schedAfterSwtch_ok (hok : s.schedAfterSwtch source c = .ok t) :
    StepOk source s c .afterSwtch t := by
  unfold schedAfterSwtch at hok
  split at hok
  · next p hsched =>
    simp only [pure_eq_ok] at hok
    subst t
    exact .afterSwtch hsched
  · simp at hok

private theorem schedRelease_ok (hok : s.schedRelease c = .ok t) :
    StepOk source s c .releasePtable t := by
  simp only [schedRelease, bind_eq_ok, await_eq_ok, pure_eq_ok] at hok
  obtain ⟨_, hsched, mid, hmid, rfl⟩ := hok
  obtain ⟨hlock, rfl⟩ := releasePtable_ok hmid
  exact .releasePtable hsched hlock

private theorem forkret_ok (hok : s.forkret c = .ok t) : StepOk source s c .forkret t := by
  simp only [forkret, bind_eq_ok, awaitSome_eq_ok, currentAt_eq_some, pure_eq_ok] at hok
  obtain ⟨p, ⟨hsched, hthread⟩, mid, hmid, rfl⟩ := hok
  obtain ⟨hlock, rfl⟩ := releasePtable_ok hmid
  exact .forkret hsched hthread hlock

private theorem yield_ok (hok : s.yield c = .ok t) : StepOk source s c .yield t := by
  simp only [yield, bind_eq_ok, awaitSome_eq_ok, await_eq_ok, current_eq_some] at hok
  obtain ⟨p, hsched, _, ⟨hcli, hthread, hstate⟩, mid, hmid, hok⟩ := hok
  obtain ⟨hlock, rfl⟩ := acquirePtable_ok hmid
  obtain ⟨_, rfl⟩ := enterSched_ok hok
  exact .yield hsched hthread hstate hlock hcli

private theorem yieldReturn_ok (hok : s.yieldReturn c = .ok t) :
    StepOk source s c .yieldReturn t := by
  simp only [yieldReturn, bind_eq_ok, awaitSome_eq_ok, await_eq_ok,
    current_eq_some, pure_eq_ok] at hok
  obtain ⟨p, hsched, _, hthread, mid, hmid, rfl⟩ := hok
  obtain ⟨hlock, rfl⟩ := releasePtable_ok hmid
  exact .yieldReturn hsched hthread hlock

private theorem sleep_ok {chan : Chan} {lk : ℕ} (hok : s.sleep c chan lk = .ok t) :
    StepOk source s c (.sleep chan lk) t := by
  simp only [sleep, bind_eq_ok, awaitSome_eq_ok, currentAt_eq_some,
    releaseSpin, ensure_eq_ok, pure_eq_ok] at hok
  obtain ⟨p, ⟨hsched, hthread⟩, mid, hmid, _, ⟨_, hspin, rfl⟩, hok⟩ := hok
  obtain ⟨hlock, rfl⟩ := acquirePtable_ok hmid
  obtain ⟨_, rfl⟩ := enterSched_ok hok
  exact .sleep hsched hthread hlock hspin

private theorem sleepReturn_ok (hok : s.sleepReturn c = .ok t) :
    StepOk source s c .sleepReturn t := by
  simp only [sleepReturn, bind_eq_ok, awaitSome_eq_ok, current_eq_some] at hok
  obtain ⟨p, hsched, hok⟩ := hok
  split at hok
  · next lk hthread =>
    simp only [bind_eq_ok, pure_eq_ok] at hok
    obtain ⟨mid, hmid, rfl⟩ := hok
    obtain ⟨hlock, rfl⟩ := releasePtable_ok hmid
    exact .sleepReturn hsched hthread hlock
  · simp at hok

private theorem sleepAcquire_ok (hok : s.sleepAcquire c = .ok t) :
    StepOk source s c .sleepAcquire t := by
  simp only [sleepAcquire, bind_eq_ok, awaitSome_eq_ok, current_eq_some] at hok
  obtain ⟨p, hsched, hok⟩ := hok
  split at hok
  · next lk hthread =>
    simp only [acquireSpin, bind_eq_ok, ensure_eq_ok, await_eq_ok, pure_eq_ok] at hok
    obtain ⟨_, ⟨_, _, _, hspin, rfl⟩, rfl⟩ := hok
    exact .sleepAcquire hsched hthread hspin
  · simp at hok

private theorem forkAlloc_ok {np : Option Slot} (hok : s.forkAlloc c np = .ok t) :
    StepOk source s c (.forkAlloc np) t := by
  simp only [forkAlloc, bind_eq_ok, awaitSome_eq_ok, await_eq_ok, currentAt_eq_some] at hok
  obtain ⟨p, ⟨hsched, hthread⟩, _, hfind, hok⟩ := hok
  cases np with
  | none =>
    obtain ⟨hlock, rfl⟩ := locked_ok hok
    exact .forkAllocFail hsched hthread hlock hfind
  | some np =>
    obtain ⟨hlock, rfl⟩ := locked_ok hok
    exact .forkAlloc hsched hthread hlock hfind

private theorem forkKalloc_ok {kstack : Option Page} (hok : s.forkKalloc c kstack = .ok t) :
    StepOk source s c (.forkKalloc kstack) t := by
  simp only [forkKalloc, bind_eq_ok, awaitSome_eq_ok, current_eq_some] at hok
  obtain ⟨p, hsched, hok⟩ := hok
  split at hok
  · next np hthread =>
    simp only [pure_eq_ok] at hok
    subst t
    exact .forkKallocFail hsched hthread
  · next np k hthread =>
    simp only [pure_eq_ok] at hok
    subst t
    exact .forkKalloc hsched hthread
  · simp at hok

private theorem forkCopyuvm_ok {pgdir : Option Page} (hok : s.forkCopyuvm c pgdir = .ok t) :
    StepOk source s c (.forkCopyuvm pgdir) t := by
  simp only [forkCopyuvm, bind_eq_ok, awaitSome_eq_ok, current_eq_some] at hok
  obtain ⟨p, hsched, hok⟩ := hok
  split at hok
  · next np hthread =>
    simp only [pure_eq_ok] at hok
    subst t
    exact .forkCopyuvmFail hsched hthread
  · next np g hthread =>
    simp only [pure_eq_ok] at hok
    subst t
    exact .forkCopyuvm hsched hthread
  · simp at hok

private theorem forkPublish_ok (hok : s.forkPublish c = .ok t) :
    StepOk source s c .forkPublish t := by
  simp only [forkPublish, bind_eq_ok, awaitSome_eq_ok, current_eq_some] at hok
  obtain ⟨p, hsched, hok⟩ := hok
  split at hok
  · next np hthread =>
    obtain ⟨hlock, rfl⟩ := locked_ok hok
    exact .forkPublish hsched hthread hlock
  · simp at hok

private theorem exit_ok (hok : s.exit c = .ok t) : StepOk source s c .exit t := by
  simp only [exit, bind_eq_ok, awaitSome_eq_ok, ensure_eq_ok, currentAt_eq_some] at hok
  obtain ⟨p, ⟨hsched, hthread⟩, _, hinit, mid, hmid, hok⟩ := hok
  obtain ⟨hlock, rfl⟩ := acquirePtable_ok hmid
  obtain ⟨_, rfl⟩ := enterSched_ok hok
  exact .exit hsched hthread hlock hinit

private theorem waitAcquire_ok (hok : s.waitAcquire c = .ok t) :
    StepOk source s c .waitAcquire t := by
  simp only [waitAcquire, bind_eq_ok, awaitSome_eq_ok, currentAt_eq_some, pure_eq_ok] at hok
  obtain ⟨p, ⟨hsched, hthread⟩, mid, hmid, rfl⟩ := hok
  obtain ⟨hlock, rfl⟩ := acquirePtable_ok hmid
  exact .waitAcquire hsched hthread hlock

private theorem waitScan_ok (hok : s.waitScan c = .ok t) : StepOk source s c .waitScan t := by
  simp only [waitScan, bind_eq_ok, awaitSome_eq_ok, currentAt_eq_some] at hok
  obtain ⟨p, ⟨hsched, hthread⟩, hok⟩ := hok
  split at hok
  · next q hscan =>
    simp only [bind_eq_ok, pure_eq_ok] at hok
    obtain ⟨mid, hmid, rfl⟩ := hok
    obtain ⟨hlock, rfl⟩ := releasePtable_ok hmid
    exact .waitReap hsched hthread hlock hscan
  · next hscan =>
    simp only [bind_eq_ok, pure_eq_ok] at hok
    obtain ⟨mid, hmid, rfl⟩ := hok
    obtain ⟨hlock, rfl⟩ := releasePtable_ok hmid
    exact .waitFail hsched hthread hlock hscan
  · next hscan =>
    obtain ⟨hlock, rfl⟩ := enterSched_ok hok
    exact .waitSleep hsched hthread hlock hscan

private theorem waitReturn_ok (hok : s.waitReturn c = .ok t) : StepOk source s c .waitReturn t := by
  simp only [waitReturn, bind_eq_ok, awaitSome_eq_ok, currentAt_eq_some, pure_eq_ok] at hok
  obtain ⟨p, ⟨hsched, hthread⟩, rfl⟩ := hok
  exact .waitReturn hsched hthread

private theorem tableCall_ok {f : Table → Table} (hok : s.tableCall c f = .ok t) :
    ∃ p, s.sched c = .switched p ∧ s.thread p = ⟨.elsewhere, false⟩ ∧
      s.lock = none ∧ t = { s with proc := f s.proc } := by
  simp only [tableCall, bind_eq_ok, awaitSome_eq_ok, currentAt_eq_some] at hok
  obtain ⟨p, ⟨hsched, hthread⟩, hok⟩ := hok
  obtain ⟨hlock, rfl⟩ := locked_ok hok
  exact ⟨p, hsched, hthread, hlock, rfl⟩

private theorem wakeup_ok {chan : Chan} (hok : s.wakeup c chan = .ok t) :
    StepOk source s c (.wakeup chan) t := by
  simp only [wakeup, bind_eq_ok, await_eq_ok] at hok
  obtain ⟨_, _, hok⟩ := hok
  obtain ⟨hlock, rfl⟩ := locked_ok hok
  exact .wakeup hlock

private theorem trapKill_ok (hok : s.trapKill c = .ok t) : StepOk source s c .trapKill t := by
  simp only [trapKill, bind_eq_ok, awaitSome_eq_ok, currentAt_eq_some, pure_eq_ok] at hok
  obtain ⟨p, ⟨hsched, hthread⟩, rfl⟩ := hok
  exact .trapKill hsched hthread

private theorem spinAcquire_ok {lk : ℕ} (hok : s.spinAcquire c lk = .ok t) :
    StepOk source s c (.spinAcquire lk) t := by
  simp only [spinAcquire, acquireSpin, bind_eq_ok, awaitSome_eq_ok,
    await_eq_ok, ensure_eq_ok, currentAt_eq_some, pure_eq_ok] at hok
  obtain ⟨p, ⟨hsched, hthread⟩, _, _, _, hspin, rfl⟩ := hok
  exact .spinAcquire hsched hthread hspin

private theorem spinRelease_ok {lk : ℕ} (hok : s.spinRelease c lk = .ok t) :
    StepOk source s c (.spinRelease lk) t := by
  simp only [spinRelease, releaseSpin, bind_eq_ok, awaitSome_eq_ok,
    ensure_eq_ok, currentAt_eq_some, pure_eq_ok] at hok
  obtain ⟨p, ⟨hsched, hthread⟩, _, hspin, rfl⟩ := hok
  exact .spinRelease hsched hthread hspin

theorem step_ok {action : Action} (hstep : step source s (c, action) = some t) :
    StepOk source s c action t := by
  unfold step at hstep
  rw [stepOf_eq_some] at hstep
  cases action with
  | userinitAlloc kstack pgdir => exact userinitAlloc_ok hstep
  | userinitPublish => exact userinitPublish_ok hstep
  | acquirePtable => exact schedAcquire_ok hstep
  | skip => exact schedSkip_ok hstep
  | dispatch p => exact schedDispatch_ok hstep
  | afterSwtch => exact schedAfterSwtch_ok hstep
  | releasePtable => exact schedRelease_ok hstep
  | forkret => exact forkret_ok hstep
  | yield => exact yield_ok hstep
  | yieldReturn => exact yieldReturn_ok hstep
  | sleep chan lk => exact sleep_ok hstep
  | sleepReturn => exact sleepReturn_ok hstep
  | sleepAcquire => exact sleepAcquire_ok hstep
  | forkAlloc np => exact forkAlloc_ok hstep
  | forkKalloc kstack => exact forkKalloc_ok hstep
  | forkCopyuvm pgdir => exact forkCopyuvm_ok hstep
  | forkPublish => exact forkPublish_ok hstep
  | exit => exact exit_ok hstep
  | waitAcquire => exact waitAcquire_ok hstep
  | waitScan => exact waitScan_ok hstep
  | waitReturn => exact waitReturn_ok hstep
  | kill pid =>
    simp only [perform] at hstep
    obtain ⟨p, hsched, hthread, hlock, rfl⟩ := tableCall_ok hstep
    exact .kill hsched hthread hlock
  | setPriority pid newPriority =>
    simp only [perform] at hstep
    obtain ⟨p, hsched, hthread, hlock, rfl⟩ := tableCall_ok hstep
    exact .setPriority hsched hthread hlock
  | getPriority pid =>
    simp only [perform] at hstep
    obtain ⟨p, hsched, hthread, hlock, rfl⟩ := tableCall_ok hstep
    exact .getPriority hsched hthread hlock
  | wakeup chan => exact wakeup_ok hstep
  | trapKill => exact trapKill_ok hstep
  | spinAcquire lk => exact spinAcquire_ok hstep
  | spinRelease lk => exact spinRelease_ok hstep

end Inversion

end Kernel

end Xv6Kernel
