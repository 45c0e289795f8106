import Xv6Kernel.SpinOwnership
import Mathlib.Data.Finset.Basic

/-!
# Sleep-locks

`acquiresleep` and `releasesleep` of `sleeplock.c` as callers of `sleep` and
`wakeup`.  Any number of processes use any number of sleep-locks; a process
calls `releasesleep` only for a lock that it has acquired, and any process may
be killed at any time.

A sleep-lock is owned from the statement `lk->locked = 1` to `lk->locked = 0`.
A process that sleeps on it does so because it is owned, or because the process
that has just given it up is still to call `wakeup`.
-/

namespace Xv6Kernel

open TraceExecution CodeAct

/-- `struct sleeplock` without its spinlock. -/
structure SleepLock where
  locked : Bool
  pid : ℤ
  deriving DecidableEq, Repr

/-- The next statement of `acquiresleep` (from `acquire` to `acquired`, which is
its last `release`) or of `releasesleep`. -/
inductive SleepLockPc (S : Type)
  | idle
  | acquire (lk : S)
  | test (lk : S)
  | setLocked (lk : S)
  | setPid (lk : S)
  | acquired (lk : S)
  | release (lk : S)
  | clear (lk : S)
  | clearPid (lk : S)
  | wake (lk : S)
  | released (lk : S)
  deriving DecidableEq, Repr

/-- A process with the sleep-locks that it has acquired: those for which it is
between the return of `acquiresleep` and the call of `releasesleep`. -/
structure SleepLockUser (S : Type) where
  pos : SleepLockPc S
  mine : Finset S
  deriving DecidableEq

inductive SleepLockCall (S : Type)
  | acquiresleep (lk : S)
  | releasesleep (lk : S)
  | kill (pid : ℤ)
  | continue
  deriving DecidableEq, Repr

section Code

variable {S : Type} [DecidableEq S] {act : CodeAct S S (SleepLockUser S) (S → SleepLock)}
  {self : Option (Task S)} {call : SleepLockCall S} {k : SleepLockUser S} {mem : S → SleepLock}

def sleepLockCode (self : Option (Task S)) (call : SleepLockCall S) (k : SleepLockUser S)
    (mem : S → SleepLock) : Outcome (CodeAct S S (SleepLockUser S) (S → SleepLock)) :=
  match k.pos with
  | .idle =>
      match call with
      | .acquiresleep lk => .ok (.store mem ⟨.acquire lk, k.mine⟩)
      | .releasesleep lk => do
          await (lk ∈ k.mine)
          return .store mem ⟨.release lk, k.mine.erase lk⟩
      | .kill pid => .ok (.kill pid k)
      | .continue => blocked
  | .acquire lk => .ok (.acquire lk ⟨.test lk, k.mine⟩)
  | .test lk =>
      if (mem lk).locked then .ok (.sleep lk lk ⟨.test lk, k.mine⟩)
      else .ok (.store mem ⟨.setLocked lk, k.mine⟩)
  | .setLocked lk =>
      .ok (.store (Function.update mem lk { mem lk with locked := true })
        ⟨.setPid lk, k.mine⟩)
  | .setPid lk =>
      match self with
      | some task =>
          .ok (.store (Function.update mem lk { mem lk with pid := task.pid })
            ⟨.acquired lk, k.mine⟩)
      | none => blocked
  | .acquired lk => .ok (.release lk ⟨.idle, insert lk k.mine⟩)
  | .release lk => .ok (.acquire lk ⟨.clear lk, k.mine⟩)
  | .clear lk =>
      .ok (.store (Function.update mem lk { mem lk with locked := false })
        ⟨.clearPid lk, k.mine⟩)
  | .clearPid lk =>
      .ok (.store (Function.update mem lk { mem lk with pid := 0 })
        ⟨.wake lk, k.mine⟩)
  | .wake lk => .ok (.wakeup lk ⟨.released lk, k.mine⟩)
  | .released lk => .ok (.release lk ⟨.idle, k.mine⟩)

def sleepLocks (S : Type) [DecidableEq S] :
    Program S S (SleepLockUser S) (S → SleepLock) (SleepLockCall S) where
  code := sleepLockCode
  interrupt _ _ := blocked
  device _ _ := blocked

abbrev SleepLockMachine (n : ℕ) (C S : Type) :=
  SleepMachine n C S S (SleepLockUser S) (S → SleepLock)

def SleepLockMachine.Initial {n : ℕ} {C : Type} (s : SleepLockMachine n C S) : Prop :=
  SleepMachine.Initial (fun _ => ⟨.idle, ∅⟩) s ∧
    ∀ lk, s.mem lk = ⟨false, 0⟩

/-! ## Where the inner spinlock is held -/

def SleepLockPc.inner : SleepLockPc S → Option S
  | .test lk | .setLocked lk | .setPid lk | .acquired lk | .clear lk
  | .clearPid lk | .wake lk | .released lk => some lk
  | _ => none

theorem sleepLockCode_spec
    (hcode : (sleepLocks S).code self call k mem = .ok act) :
    match act with
    | .acquire lk next => k.pos.inner = none ∧ next.pos.inner = some lk
    | .release lk next => k.pos.inner = some lk ∧ next.pos.inner = none
    | .sleep chan lk next =>
      k.pos = .test lk ∧ chan = lk ∧ next = k ∧ (mem lk).locked = true
    | .wakeup chan next => k.pos = .wake chan ∧ next.pos = .released chan
    | .kill _ next => k.pos = .idle ∧ next = k
    | .store mem' next => next.pos.inner = k.pos.inner ∧
        ∀ l, (mem l).locked = true →
          (mem' l).locked = true ∨ next.pos = .clearPid l
    | .iret => False := by
  change sleepLockCode self call k mem = .ok act at hcode
  obtain ⟨pos, mine⟩ := k
  cases pos with
  | idle =>
    cases call <;> simp only [sleepLockCode, bind_eq_ok, await_eq_ok,
      pure_eq_ok, Except.ok.injEq, blocked_ne_ok] at hcode
    · subst hcode
      exact ⟨rfl, fun _ => Or.inl⟩
    · obtain ⟨_, _, rfl⟩ := hcode
      exact ⟨rfl, fun _ => Or.inl⟩
    · subst hcode
      exact ⟨rfl, rfl⟩
  | test lk =>
    simp only [sleepLockCode] at hcode
    split at hcode
    next hlocked =>
      cases hcode
      exact ⟨rfl, rfl, rfl, hlocked⟩
    next =>
      cases hcode
      exact ⟨rfl, fun _ => Or.inl⟩
  | setLocked lk =>
    cases hcode
    refine ⟨rfl, fun l hl => Or.inl ?_⟩
    by_cases hlk : l = lk
    · simp [hlk]
    · simpa [hlk] using hl
  | setPid lk =>
    cases self with
    | none => simp [sleepLockCode] at hcode
    | some task =>
      cases hcode
      refine ⟨rfl, fun l hl => Or.inl ?_⟩
      by_cases hlk : l = lk
      · simpa [hlk] using hl
      · simpa [hlk] using hl
  | clear lk =>
    cases hcode
    refine ⟨rfl, fun l hl => ?_⟩
    by_cases hlk : l = lk
    · exact Or.inr (by simp [hlk])
    · exact Or.inl (by simpa [hlk] using hl)
  | clearPid lk =>
    cases hcode
    refine ⟨rfl, fun l hl => Or.inl ?_⟩
    by_cases hlk : l = lk
    · simpa [hlk] using hl
    · simpa [hlk] using hl
  | wake lk =>
    cases hcode
    exact ⟨rfl, rfl⟩
  | _ =>
    cases hcode
    simp [SleepLockPc.inner]

theorem sleepLockCode_clears {lk : S} (hcode : (sleepLocks S).code self call k mem = .ok act)
    (hpos : k.pos = .clearPid lk ∨ k.pos = .wake lk) :
    (∃ mem', act = .store mem' ⟨.wake lk, k.mine⟩) ∨
      act = .wakeup lk ⟨.released lk, k.mine⟩ := by
  change sleepLockCode self call k mem = .ok act at hcode
  obtain ⟨pos, mine⟩ := k
  rcases hpos with rfl | rfl
  · cases hcode
    exact Or.inl ⟨_, rfl⟩
  · cases hcode
    exact Or.inr rfl

theorem sleepLocks_locking : (sleepLocks S).Locking fun k l => k.pos.inner = some l := by
  constructor
  case acquire | release =>
    intro self call k mem lk next h l
    obtain ⟨hbefore, hafter⟩ := sleepLockCode_spec h
    simp [hbefore, hafter, eq_comm]
  case sleep =>
    intro self call k mem chan lk next h
    obtain ⟨hpos, _, rfl, _⟩ := sleepLockCode_spec h
    simp [hpos, SleepLockPc.inner]
  case wakeup =>
    intro self call k mem chan next h l
    obtain ⟨hbefore, hafter⟩ := sleepLockCode_spec h
    simp [hbefore, hafter, SleepLockPc.inner]
  case kill =>
    intro self call k mem pid next h l
    obtain ⟨_, rfl⟩ := sleepLockCode_spec h
    rfl
  case store =>
    intro self call k mem mem' next h l
    rw [(sleepLockCode_spec h).1]
  case iret =>
    intro self call k mem h
    exact (sleepLockCode_spec h).elim
  case interrupt =>
    intro call mem mem' k h
    simp [sleepLocks] at h

end Code

def SleepLockPc.owns {S : Type} : SleepLockPc S → Option S
  | .setPid lk | .acquired lk | .release lk | .clear lk => some lk
  | _ => none

namespace SleepLockMachine

open SleepMachine SleepLockPc

variable {n : ℕ} {C S : Type} {s t : SleepLockMachine n C S} {k : SleepLockUser S}
variable {p q : Fin n} {lk : S} {c : C} {call : SleepLockCall S}

def user (s : SleepLockMachine n C S) (p : Fin n) : SleepLockUser S :=
  (s.pc (.proc p)).home

def Owner (s : SleepLockMachine n C S) (lk : S) (p : Fin n) : Prop :=
  lk ∈ (s.user p).mine ∨ (s.user p).pos.owns = some lk

def CallOk : CodePc S S (SleepLockUser S) → Prop
  | .code _ => True
  | .sleeping _ chan lk next => chan = lk ∧ next.pos = .test lk
  | .waking _ chan next => next.pos = .released chan
  | .killing _ _ next => next.pos = .idle

/-- At most one process owns a sleep-lock, and its fields say which. -/
structure Exclusive (s : SleepLockMachine n C S) : Prop where
  calls : ∀ p, CallOk (s.pc (.proc p))
  owned : ∀ lk, ∃ owner, Owned owner (s.Owner lk) ∧
    ((s.mem lk).locked = true ↔ owner ≠ none)
  free : ∀ p lk, (s.user p).pos = .setLocked lk ∨
    (s.user p).pos = .clearPid lk → (s.mem lk).locked = false
  apart : ∀ p lk, (s.user p).pos.owns = some lk → lk ∉ (s.user p).mine
  pid : ∀ p lk, s.Owner lk p → (s.user p).pos ≠ .setPid lk →
    (s.mem lk).pid = (s.proc p).pid

/-- What `Exclusive` says about one sleep-lock. -/
structure LockOk (s : SleepLockMachine n C S) (lk : S) : Prop where
  owned : ∃ owner, Owned owner (s.Owner lk) ∧ ((s.mem lk).locked = true ↔ owner ≠ none)
  free : ∀ p, (s.user p).pos = .setLocked lk ∨ (s.user p).pos = .clearPid lk →
    (s.mem lk).locked = false
  apart : ∀ p, (s.user p).pos.owns = some lk → lk ∉ (s.user p).mine
  pid : ∀ p, s.Owner lk p → (s.user p).pos ≠ .setPid lk → (s.mem lk).pid = (s.proc p).pid

theorem Exclusive.lock (hs : s.Exclusive) (lk : S) : s.LockOk lk :=
  ⟨hs.owned lk, fun p => hs.free p lk, fun p => hs.apart p lk, fun p => hs.pid p lk⟩

theorem exclusive_of_locks (hcalls : ∀ p, CallOk (s.pc (.proc p)))
    (hlock : ∀ lk, s.LockOk lk) : s.Exclusive :=
  ⟨hcalls, fun lk => (hlock lk).owned, fun p lk => (hlock lk).free p,
    fun p lk => (hlock lk).apart p, fun p lk => (hlock lk).pid p⟩

theorem LockOk.frame (h : s.LockOk lk) (hpids : ∀ q, (t.proc q).pid = (s.proc q).pid)
    (hmem : t.mem lk = s.mem lk)
    (husers : ∀ q, t.user q = s.user q ∨ (t.Owner lk q ↔ s.Owner lk q) ∧
      ((t.user q).pos = .setLocked lk ∨ (t.user q).pos = .clearPid lk →
        (s.mem lk).locked = false) ∧
      ((t.user q).pos.owns = some lk → lk ∉ (t.user q).mine) ∧ (s.user q).pos ≠ .setPid lk) :
    t.LockOk lk := by
  have howner : ∀ q, t.Owner lk q ↔ s.Owner lk q := by
    intro q
    rcases husers q with hsame | hmoved
    · simp only [Owner, hsame]
    · exact hmoved.1
  obtain ⟨owner, howned, hlocked⟩ := h.owned
  refine ⟨⟨owner, fun q => (howned q).trans (howner q).symm, by rwa [hmem]⟩, ?_, ?_, ?_⟩
  · intro q
    rw [hmem]
    rcases husers q with hsame | hmoved
    · rw [hsame]
      exact h.free q
    · exact hmoved.2.1
  · intro q
    rcases husers q with hsame | hmoved
    · rw [hsame]
      exact h.apart q
    · exact hmoved.2.2.1
  · intro q hq hne
    rw [hmem, hpids]
    apply h.pid q ((howner q).mp hq)
    rcases husers q with hsame | hmoved
    · rwa [hsame] at hne
    · exact hmoved.2.2.2

theorem exclusive_initial [DecidableEq S] (hinit : s.Initial) : s.Exclusive := by
  obtain ⟨hstart, hmem⟩ := hinit
  have huser : ∀ p, s.user p = ⟨.idle, ∅⟩ := by
    intro p
    simp [user, hstart.pc p, CodePc.home]
  constructor
  case calls =>
    intro p
    simp [hstart.pc p, CallOk]
  case owned =>
    intro lk
    refine ⟨none, ?_, by simp [hmem]⟩
    intro p
    simp [Owner, huser, owns]
  case free =>
    intro p lk _
    simp [hmem]
  case apart => simp [huser, owns]
  case pid => simp [Owner, huser, owns]

theorem Exclusive.code (hs : s.Exclusive) {pos : SleepLockPc S} (hpos : (s.user p).pos = pos)
    (htest : ∀ lk, pos ≠ .test lk) (hreleased : ∀ lk, pos ≠ .released lk) (hidle : pos ≠ .idle) :
    ∃ k, s.pc (.proc p) = .code k := by
  have hcall := hs.calls p
  unfold user at hpos
  cases hpc : s.pc (.proc p) with
  | code k => exact ⟨k, rfl⟩
  | sleeping stage chan lk next =>
    rw [hpc] at hcall hpos
    exact (htest lk (hpos.symm.trans hcall.2)).elim
  | waking stage chan next =>
    rw [hpc] at hcall hpos
    exact (hreleased chan (hpos.symm.trans hcall)).elim
  | killing stage pid next =>
    rw [hpc] at hcall hpos
    exact (hidle (hpos.symm.trans hcall)).elim

theorem Exclusive.same (hs : s.Exclusive) (hspin : s.SpinSound fun k l => k.pos.inner = some l)
    (hpc : s.pc (.proc p) = .code k) (hinner : k.pos.inner = some lk)
    (hq : (s.user q).pos = .setLocked lk ∨ (s.user q).pos = .clearPid lk) : q = p := by
  have hqcode : ∃ k, s.pc (.proc q) = .code k := by
    rcases hq with hq | hq
    · exact hs.code hq (by simp) (by simp) (by simp)
    · exact hs.code hq (by simp) (by simp) (by simp)
  obtain ⟨k', hk'⟩ := hqcode
  have hpholds : s.HoldsSpin (fun k l => k.pos.inner = some l) lk (.proc p) := by
    simpa [HoldsSpin, hpc, CodePc.Holds] using hinner
  have hqholds : s.HoldsSpin (fun k l => k.pos.inner = some l) lk (.proc q) := by
    simp only [user, hk', CodePc.home] at hq
    rcases hq with hq | hq <;>
      simp [HoldsSpin, hk', CodePc.Holds, hq, SleepLockPc.inner]
  simpa using (hspin.owned lk).unique hqholds hpholds

section Changes

variable (hs : s.Exclusive) (hcalls : ∀ q, CallOk (t.pc (.proc q)))
variable (hpids : ∀ q, (t.proc q).pid = (s.proc q).pid)
variable (hothers : ∀ q, q ≠ p → t.user q = s.user q)

include hs hcalls hpids hothers

theorem Exclusive.quiet (hmem : t.mem = s.mem)
    (howner : ∀ lk, t.Owner lk p ↔ s.Owner lk p)
    (hfree : ∀ lk, (t.user p).pos = .setLocked lk ∨
      (t.user p).pos = .clearPid lk → (s.mem lk).locked = false)
    (hapart : ∀ lk, (t.user p).pos.owns = some lk → lk ∉ (t.user p).mine)
    (hpos : ∀ lk, (s.user p).pos ≠ .setPid lk) : t.Exclusive := by
  refine exclusive_of_locks hcalls fun lk => (hs.lock lk).frame hpids (by rw [hmem]) fun q => ?_
  by_cases hq : q = p
  · subst q
    exact Or.inr ⟨howner lk, hfree lk, hapart lk, hpos lk⟩
  · exact Or.inl (hothers q hq)

theorem Exclusive.write [DecidableEq S] {lk : S} {v : SleepLock} {pos : SleepLockPc S}
    (hspin : s.SpinSound fun k l => k.pos.inner = some l) (hpc : s.pc (.proc p) = .code k)
    (hinner : k.pos.inner = some lk) (huser : t.user p = ⟨pos, k.mine⟩)
    (hinner' : pos.inner = some lk) (hmem : t.mem = Function.update s.mem lk v)
    (howned : ∃ owner, Owned owner (t.Owner lk) ∧ (v.locked = true ↔ owner ≠ none))
    (hfree : pos = .setLocked lk ∨ pos = .clearPid lk → v.locked = false)
    (hapart : pos.owns = some lk → lk ∉ k.mine)
    (hpid : ∀ q, t.Owner lk q → (t.user q).pos ≠ .setPid lk → v.pid = (s.proc q).pid) :
    t.Exclusive := by
  have hk : s.user p = k := by simp [user, hpc, CodePc.home]
  -- A position with the inner spinlock held is about no other sleep-lock.
  have honly : ∀ {pos : SleepLockPc S} {l : S}, pos.inner = some lk → l ≠ lk →
      pos ≠ .setLocked l ∧ pos ≠ .clearPid l ∧ pos ≠ .setPid l ∧ pos.owns ≠ some l := by
    intro pos l hin hl
    refine ⟨?_, ?_, ?_, ?_⟩
    iterate 3
      · rintro rfl
        exact hl (Option.some.inj hin)
    · intro howns
      cases pos <;> cases hin <;> cases howns <;> exact hl rfl
  refine exclusive_of_locks hcalls fun l => ?_
  by_cases hl : l = lk
  · subst l
    have hself : t.mem lk = v := by rw [hmem, Function.update_self]
    refine ⟨by rwa [hself], ?_, ?_, ?_⟩
    · intro q hq
      rw [hself]
      by_cases hqp : q = p
      · subst q
        rw [huser] at hq
        exact hfree hq
      · rw [hothers q hqp] at hq
        exact (hqp (hs.same hspin hpc hinner hq)).elim
    · intro q
      by_cases hqp : q = p
      · subst q
        rw [huser]
        exact hapart
      · rw [hothers q hqp]
        exact hs.apart q lk
    · intro q hq hne
      rw [hself, hpids]
      exact hpid q hq hne
  · refine (hs.lock l).frame hpids (by rw [hmem, Function.update_of_ne hl]) fun q => ?_
    by_cases hqp : q = p
    · subst q
      have hbefore := honly hinner hl
      have hafter := honly hinner' hl
      simp [Owner, huser, hk, hbefore, hafter]
    · exact Or.inl (hothers q hqp)

end Changes

section Steps

variable [DecidableEq S]

theorem Exclusive.codeStep {act : CodeAct S S (SleepLockUser S) (S → SleepLock)} (hs : s.Exclusive)
    (hspin : s.SpinSound fun k l => k.pos.inner = some l) (hcalls : ∀ q, CallOk (t.pc (.proc q)))
    (hpids : ∀ q, (t.proc q).pid = (s.proc q).pid) (hothers : ∀ q, q ≠ p → t.user q = s.user q)
    (hpc : s.pc (.proc p) = .code k)
    (hcode : sleepLockCode (some (s.proc p)) call k s.mem = .ok act)
    (huser : t.user p = act.target k) (hmem : t.mem = act.result s.mem) : t.Exclusive := by
  have hk : s.user p = k := by simp [user, hpc, CodePc.home]
  obtain ⟨pos, mine⟩ := k
  cases pos with
  | idle =>
    cases call with
    | acquiresleep | kill =>
      cases hcode
      apply hs.quiet hcalls hpids hothers hmem <;>
        simp [huser, hk, target, Owner, owns]
    | releasesleep lk =>
      simp only [sleepLockCode, bind_eq_ok, await_eq_ok, pure_eq_ok] at hcode
      obtain ⟨_, hmine, rfl⟩ := hcode
      apply hs.quiet hcalls hpids hothers hmem
      · intro l
        by_cases hl : l = lk
        · simp [huser, hk, target, Owner, owns, hl, hmine]
        · simp [huser, hk, target, Owner, owns, hl, Ne.symm hl]
      · simp [huser, target]
      · simp [huser, target, owns]
      · simp [hk]
    | «continue» => simp [sleepLockCode] at hcode
  | acquire | wake | released =>
    cases hcode
    apply hs.quiet hcalls hpids hothers hmem <;>
      simp [huser, hk, target, Owner, owns]
  | test lk =>
    simp only [sleepLockCode] at hcode
    split at hcode
    next =>
      cases hcode
      apply hs.quiet hcalls hpids hothers hmem <;>
        simp [huser, hk, target, Owner, owns]
    next hfree =>
      cases hcode
      apply hs.quiet hcalls hpids hothers hmem
      · simp [huser, hk, target, Owner, owns]
      · intro l hl
        simp only [huser, target, setLocked.injEq, reduceCtorEq, or_false] at hl
        simpa [hl] using hfree
      · simp [huser, target, owns]
      · simp [hk]
  | setLocked lk =>
    cases hcode
    have hunlocked := hs.free p lk (Or.inl (by simp [hk]))
    obtain ⟨owner, howned, hlocked⟩ := hs.owned lk
    obtain rfl : owner = none := by simpa [hunlocked] using hlocked
    have hmine : lk ∉ mine := by
      intro hin
      have hself : s.Owner lk p := Or.inl (by simpa [hk] using hin)
      simpa using (howned p).mpr hself
    apply hs.write hcalls hpids hothers hspin hpc rfl huser rfl hmem
    · refine ⟨some p, howned.take ?_ ?_, by simp⟩
      · simp [Owner, huser, target, owns]
      · intro q hq
        simp only [Owner, hothers q hq]
    · simp
    · exact fun _ => hmine
    · intro q hq hne
      have hqp : q ≠ p := by
        rintro rfl
        simp [huser, target] at hne
      have hbefore : s.Owner lk q := by
        simpa only [Owner, hothers q hqp] using hq
      simpa using (howned q).mpr hbefore
  | setPid lk =>
    cases hcode
    obtain ⟨owner, howned, hlocked⟩ := hs.owned lk
    have hself : s.Owner lk p := by simp [Owner, hk, owns]
    have howner : ∀ q, t.Owner lk q ↔ s.Owner lk q := by
      intro q
      by_cases hqp : q = p
      · subst q
        simp [Owner, huser, hk, target, owns]
      · simp only [Owner, hothers q hqp]
    apply hs.write hcalls hpids hothers hspin hpc rfl huser rfl hmem
    · exact ⟨owner, fun q => (howned q).trans (howner q).symm, hlocked⟩
    · simp
    · intro _
      simpa [hk] using hs.apart p lk (by simp [hk, owns])
    · intro q hq _
      obtain rfl := howned.unique ((howner q).mp hq) hself
      rfl
  | acquired lk =>
    cases hcode
    apply hs.quiet hcalls hpids hothers hmem
    · intro l
      have hsame : l = lk ↔ lk = l := eq_comm
      simp [huser, hk, target, Owner, owns, hsame, or_comm]
    · simp [huser, target]
    · simp [huser, target, owns]
    · simp [hk]
  | release lk =>
    cases hcode
    have hapart := hs.apart p lk (by simp [hk, owns])
    apply hs.quiet hcalls hpids hothers hmem <;> simp_all [target, Owner, owns]
  | clear lk =>
    cases hcode
    obtain ⟨owner, howned, hlocked⟩ := hs.owned lk
    have hself : s.Owner lk p := by simp [Owner, hk, owns]
    have hleft : ¬ t.Owner lk p := by
      have hapart := hs.apart p lk (by simp [hk, owns])
      simpa [Owner, huser, target, owns, hk] using hapart
    have hnone : Owned none (t.Owner lk) := by
      apply howned.release hself hleft
      intro q hq
      simp only [Owner, hothers q hq]
    apply hs.write hcalls hpids hothers hspin hpc rfl huser rfl hmem
    · exact ⟨none, hnone, by simp⟩
    · simp
    · simp [owns]
    · intro q hq _
      simpa using (hnone q).mpr hq
  | clearPid lk =>
    cases hcode
    have hunlocked := hs.free p lk (Or.inr (by simp [hk]))
    obtain ⟨owner, howned, hlocked⟩ := hs.owned lk
    obtain rfl : owner = none := by simpa [hunlocked] using hlocked
    have howner : ∀ q, t.Owner lk q ↔ s.Owner lk q := by
      intro q
      by_cases hqp : q = p
      · subst q
        simp [Owner, huser, hk, target, owns]
      · simp only [Owner, hothers q hqp]
    have hnone : Owned none (t.Owner lk) := fun q =>
      (howned q).trans (howner q).symm
    apply hs.write hcalls hpids hothers hspin hpc rfl huser rfl hmem
    · exact ⟨none, hnone, by simp [hunlocked]⟩
    · simp
    · simp [owns]
    · intro q hq _
      simpa using (hnone q).mpr hq

variable [DecidableEq C] {label : C × SleepMove n (SleepLockCall S)}

theorem callOk_step (hcalls : ∀ q, CallOk (s.pc (.proc q)))
    (hstep : StepOk (sleepLocks S) s label t) : CallOk (t.pc (.proc p)) := by
  rcases hstep.pc_proc (p := p) with hsame | ⟨c, call, hactor, hrun⟩
  · rw [hsame]
    exact hcalls p
  · have hcall := hcalls p
    cases hrun with
    | sleep hpc hcode =>
      obtain ⟨hpos, rfl, rfl, _⟩ := sleepLockCode_spec hcode
      simp [CallOk, hpos]
    | wakeup hpc hcode =>
      obtain ⟨_, hpos⟩ := sleepLockCode_spec hcode
      simp [CallOk, hpos]
    | kill hpc hcode =>
      obtain ⟨hpos, rfl⟩ := sleepLockCode_spec hcode
      simp [CallOk, hpos]
    | _ => simp_all [CallOk]

theorem Exclusive.step (hs : s.Exclusive) (hspin : s.SpinSound fun k l => k.pos.inner = some l)
    (hquiet : ∀ c, s.inIntr c = false) (hstep : StepOk (sleepLocks S) s label t) : t.Exclusive := by
  have hcalls : ∀ q, CallOk (t.pc (.proc q)) := fun q =>
    callOk_step hs.calls hstep
  have hsame : (∀ q, t.user q = s.user q) → t.mem = s.mem → t.Exclusive := by
    intro husers hmem
    exact exclusive_of_locks hcalls fun lk =>
      (hs.lock lk).frame hstep.pid (by rw [hmem]) fun q => Or.inl (husers q)
  cases hstep with
  | interrupt _ hintr => simp [sleepLocks] at hintr
  | device hdevice => simp [sleepLocks] at hdevice
  | @run c call a t hactor hrun =>
    rcases hrun.view with ⟨hhome, hmem⟩ | ⟨k, act, hpc, hcode, htarget, hmem⟩
    · exact hsame (fun q => hhome (.proc q)) hmem
    · cases a with
      | proc p =>
        apply hs.codeStep hspin hcalls hrun.pid _ hpc hcode htarget hmem
        intro q hq
        simp only [user]
        rw [hrun.pc_of_ne (by simpa using hq)]
      | sched d => exact (actor_ne_sched hactor).elim
      | intr d => simpa [hquiet c] using (actor_intr hactor).2
  | _ => exact hsame (fun _ => rfl) rfl

/-! ## Nobody sleeps on a free sleep-lock -/

def Waits (s : SleepLockMachine n C S) (p : Fin n) (lk : S) : Prop :=
  (∃ l next, s.pc (.proc p) = .sleeping .acquire lk l next ∨
    s.pc (.proc p) = .sleeping .release lk l next) ∨ s.Waiting p lk

def Clears (p : Fin n) (lk : S) : CodePc S S (SleepLockUser S) → Prop
  | .code k => k.pos = .clearPid lk ∨ k.pos = .wake lk
  | .waking .acquire chan _ => chan = lk
  | .waking (.scan j) chan _ => chan = lk ∧ j ≤ p.val
  | _ => False

/-- A process waits for a sleep-lock that is locked, or that was unlocked by a
process which is still to wake it. -/
def Attended (s : SleepLockMachine n C S) : Prop :=
  ∀ p lk, s.Waits p lk →
    (s.mem lk).locked = true ∨ ∃ q, Clears p lk (s.pc (.proc q))

omit [DecidableEq S] [DecidableEq C] in
theorem attended_initial {start : Fin n → SleepLockUser S}
    (hinit : SleepMachine.Initial start s) : s.Attended := by
  intro p lk hwaits
  simp [Waits, Waiting, hinit.pc p, CodePc.Waits] at hwaits

omit [DecidableEq S] [DecidableEq C] in
theorem Clears.holds (hcall : CallOk (s.pc (.proc q))) (hclears : Clears p lk (s.pc (.proc q))) :
    s.HoldsSpin (fun k l => k.pos.inner = some l) lk (.proc q) := by
  cases hpc : s.pc (.proc q) with
  | code k =>
    rw [hpc] at hclears
    rcases hclears with h | h <;>
      simp [HoldsSpin, hpc, CodePc.Holds, h, SleepLockPc.inner]
  | sleeping | killing => simp [hpc, Clears] at hclears
  | waking stage chan next =>
    rw [hpc] at hclears hcall
    have hpos : next.pos = .released chan := hcall
    cases stage with
    | acquire =>
      obtain rfl : chan = lk := hclears
      simp [HoldsSpin, hpc, CodePc.Holds, hpos, SleepLockPc.inner]
    | scan j =>
      obtain ⟨rfl, _⟩ := hclears
      simp [HoldsSpin, hpc, CodePc.Holds, hpos, SleepLockPc.inner]
    | release => exact hclears.elim

theorem waits_step (hsound : s.Sound) (hstep : StepOk (sleepLocks S) s label t)
    (hwaits : t.Waits p lk) : s.Waits p lk ∨ t.mem = s.mem ∧ (s.mem lk).locked = true := by
  rcases hwaits with ⟨l, next, hpc⟩ | hwaiting
  · rcases hstep.pc_proc (p := p) with hsame | ⟨c, call, hactor, hrun⟩
    · exact Or.inl (Or.inl ⟨l, next, hsame ▸ hpc⟩)
    · cases hrun with
      | sleep hpc' hcode =>
        obtain ⟨_, rfl, rfl, hlocked⟩ := sleepLockCode_spec hcode
        simp at hpc
        obtain ⟨rfl, _⟩ := hpc
        exact Or.inr ⟨rfl, hlocked⟩
      | sleepAcquire hpc' hlock =>
        simp at hpc
        obtain ⟨rfl, rfl, rfl⟩ := hpc
        exact Or.inl (Or.inl ⟨_, _, Or.inl hpc'⟩)
      | _ => simp at hpc
  · rcases hstep.waiting hsound hwaiting with h | ⟨l, next, h⟩
    · exact Or.inl (Or.inr h)
    · exact Or.inl (Or.inl ⟨l, next, Or.inr h⟩)

omit [DecidableEq S] [DecidableEq C] in
theorem Waits.waiting (hwaits : s.Waits p lk) (hspin : s.SpinSound fun k l => k.pos.inner = some l)
    (hcalls : ∀ q, CallOk (s.pc (.proc q))) {stage : ScanStage} {next : SleepLockUser S}
    (hpc : s.pc (.proc q) = .waking stage lk next) : s.Waiting p lk := by
  rcases hwaits with ⟨l, next', hpcp⟩ | hwaiting
  · have hp := hcalls p
    have hq := hcalls q
    have hqholds : s.HoldsSpin (fun k l => k.pos.inner = some l) lk
        (.proc q) := by
      rw [hpc] at hq
      have hpos : next.pos = .released lk := hq
      simp [HoldsSpin, hpc, CodePc.Holds, hpos, SleepLockPc.inner]
    have hpholds : s.HoldsSpin (fun k l => k.pos.inner = some l) lk
        (.proc p) := by
      rcases hpcp with h | h <;>
      · rw [h] at hp
        obtain ⟨rfl, hpos⟩ : lk = l ∧ next'.pos = .test l := hp
        simp [HoldsSpin, h, CodePc.Holds, hpos, SleepLockPc.inner]
    have hsame : q = p := by
      simpa using (hspin.owned lk).unique hqholds hpholds
    subst q
    rcases hpcp with h | h <;> simp [hpc] at h
  · exact hwaiting

theorem locked_step (hquiet : ∀ c, s.inIntr c = false) (hstep : StepOk (sleepLocks S) s label t)
    (hlocked : (s.mem lk).locked = true) :
    (t.mem lk).locked = true ∨ ∃ q, Clears p lk (t.pc (.proc q)) := by
  cases hstep with
  | interrupt _ hintr => simp [sleepLocks] at hintr
  | device hdevice => simp [sleepLocks] at hdevice
  | @run c call a t hactor hrun =>
    cases hrun with
    | @store a k next mem hpc hcode =>
      cases a with
      | proc q =>
        rcases (sleepLockCode_spec hcode).2 lk hlocked with h | h
        · exact Or.inl h
        · exact Or.inr ⟨q, by simp [Clears, h]⟩
      | sched d => exact (actor_ne_sched hactor).elim
      | intr d => simpa [hquiet c] using (actor_intr hactor).2
    | _ => exact Or.inl hlocked
  | _ => exact Or.inl hlocked

theorem clears_step (hsound : s.Sound) (hspin : t.SpinSound fun k l => k.pos.inner = some l)
    (hcalls : ∀ q, CallOk (t.pc (.proc q))) (hstep : StepOk (sleepLocks S) s label t)
    (hwaits : t.Waits p lk) (hclears : Clears p lk (s.pc (.proc q))) :
    Clears p lk (t.pc (.proc q)) := by
  rcases hstep.pc_proc (p := q) with hsame | ⟨c, call, hactor, hrun⟩
  · rwa [hsame]
  · have hrouses : (s.pc (.proc q)).Rouses p.val lk →
        (t.pc (.proc q)).Rouses p.val lk :=
      hrun.rouses hsound hactor fun _ _ => hwaits.waiting hspin hcalls
    cases hrun with
    | acquire hpc hcode | release hpc hcode | sleep hpc hcode
    | wakeup hpc hcode | kill hpc hcode | store hpc hcode =>
      rw [hpc] at hclears
      rcases sleepLockCode_clears hcode hclears with ⟨mem', hact⟩ | hact
      · first
          | (cases hact; simp [Clears])
          | simp at hact
      · first
          | (cases hact; simp [Clears])
          | simp at hact
    | wakeAcquire hpc | wakeScan hpc | wakeEnd hpc =>
      rw [hpc] at hclears hrouses
      simpa [Clears, CodePc.Rouses] using hrouses hclears
    | _ => simp_all [Clears]

structure Invariant (s : SleepLockMachine n C S) : Prop where
  sound : s.Sound
  spin : s.SpinSound fun k l => k.pos.inner = some l
  quiet : ∀ c, s.inIntr c = false
  exclusive : s.Exclusive
  attended : s.Attended

omit [DecidableEq C] in
theorem invariant_initial (hinit : s.Initial) : s.Invariant where
  sound := sound_initial hinit.1
  spin := spinSound_initial hinit.1 (by simp [SleepLockPc.inner])
  quiet := hinit.1.inIntr
  exclusive := exclusive_initial hinit
  attended := attended_initial hinit.1

theorem quiet_step (hquiet : ∀ c, s.inIntr c = false)
    (hstep : StepOk (sleepLocks S) s label t) (d : C) : t.inIntr d = false := by
  cases hstep with
  | interrupt _ hintr => simp [sleepLocks] at hintr
  | @run c call a t hactor hrun =>
    cases hrun with
    | iret hpc hcode => exact (sleepLockCode_spec hcode).elim
    | _ => exact hquiet d
  | _ => exact hquiet d

theorem Invariant.step (hs : s.Invariant)
    (hstep : StepOk (sleepLocks S) s label t) : t.Invariant := by
  have hspin := hs.spin.step sleepLocks_locking hstep
  have hexclusive := hs.exclusive.step hs.spin hs.quiet hstep
  refine ⟨hs.sound.step hstep, hspin, quiet_step hs.quiet hstep, hexclusive, ?_⟩
  intro p lk hwaits
  rcases waits_step hs.sound hstep hwaits with hbefore | ⟨hmem, hlocked⟩
  · rcases hs.attended p lk hbefore with hlocked | ⟨q, hclears⟩
    · exact locked_step hs.quiet hstep hlocked
    · exact Or.inr ⟨q, clears_step hs.sound hspin hexclusive.calls hstep hwaits hclears⟩
  · exact Or.inl (hmem ▸ hlocked)

theorem invariant_reachable (hreach : Reachable (step (sleepLocks S)) Initial s) : s.Invariant :=
  hreach.invariant (fun _ hinit => invariant_initial hinit)
    fun _ _ _ hs hstep => hs.step (step_ok hstep)

/-- In every reachable state at most one process has acquired a sleep-lock and
not called `releasesleep` for it yet, `lk->pid` is the `pid` of that process, and
while the inner spinlock is free only a locked sleep-lock has a process SLEEPING
on it. -/
theorem sleepLock_exclusive_progress (hreach : Reachable (step (sleepLocks S)) Initial s) (lk : S) :
    (∀ p q, lk ∈ (s.user p).mine → lk ∈ (s.user q).mine → p = q) ∧
      (∀ p, lk ∈ (s.user p).mine → (s.mem lk).pid = (s.proc p).pid) ∧
      (s.spin lk = none →
        (∃ p, s.SleepingOn p lk) → (s.mem lk).locked = true) := by
  have hs := invariant_reachable hreach
  obtain ⟨owner, howned, _⟩ := hs.exclusive.owned lk
  refine ⟨?_, ?_, ?_⟩
  · intro p q hp hq
    exact howned.unique (Or.inl hp) (Or.inl hq)
  · intro p hp
    apply hs.exclusive.pid p lk (Or.inl hp)
    intro hpos
    exact hs.exclusive.apart p lk (by simp [hpos, SleepLockPc.owns]) hp
  · rintro hfree ⟨p, hsleep⟩
    rcases hs.attended p lk (Or.inr (hs.sound.waiting hsleep)) with
      hlocked | ⟨q, hclears⟩
    · exact hlocked
    · have hholds := hclears.holds (hs.exclusive.calls q)
      simpa [hfree] using (hs.spin.owned lk (.proc q)).mpr hholds

end Steps

def twoUsers : SleepLockMachine 2 (Fin 2) Unit where
  proc p := ⟨.runnable, none, false, p.val + 1⟩
  ptable := none
  spin _ := none
  ncli _ := 0
  cpu _ := .start
  inIntr _ := false
  inYield _ := true
  pc _ := .code ⟨.idle, ∅⟩
  mem _ := ⟨false, 0⟩

theorem twoUsers_initial : twoUsers.Initial := by
  constructor
  · constructor <;> simp [twoUsers]
  · simp [twoUsers]

def lockAndWait : List (Fin 2 × SleepMove 2 (SleepLockCall Unit)) :=
  [(0, .schedAcquire), (0, .dispatch 0), (0, .yieldReturn), (1, .schedAcquire),
    (1, .dispatch 1), (1, .yieldReturn), (0, .run (.acquiresleep ()))] ++
  List.replicate 5 (0, .run .continue) ++ [(1, .run (.acquiresleep ()))] ++
  List.replicate 7 (1, .run .continue) ++ [(1, .schedRelease)]

theorem sleepLock_two_users :
    ∃ s : SleepLockMachine 2 (Fin 2) Unit,
      Reachable (step (sleepLocks Unit)) Initial s ∧ () ∈ (s.user 0).mine ∧
      s.SleepingOn 1 () ∧ s.spin () = none ∧
      (s.mem ()).pid = (s.proc 0).pid ∧ (s.mem ()).locked = true := by
  have hrun : ∃ s : SleepLockMachine 2 (Fin 2) Unit,
      exec (step (sleepLocks Unit)) twoUsers lockAndWait = some s ∧
      (decide (() ∈ (user s 0).mine) && decide (s.SleepingOn 1 ()) &&
        decide (s.spin () = none)) = true :=
    exec_of_any (by decide +kernel)
  obtain ⟨s, hs, htest⟩ := hrun
  simp only [Bool.and_eq_true, decide_eq_true_eq] at htest
  obtain ⟨⟨hmine, hsleep⟩, hfree⟩ := htest
  have hreach : Reachable (step (sleepLocks Unit)) Initial s :=
    ⟨twoUsers, lockAndWait, twoUsers_initial, hs⟩
  obtain ⟨_, hpid, hprogress⟩ := sleepLock_exclusive_progress hreach ()
  exact ⟨s, hreach, hmine, hsleep, hfree, hpid 0 hmine, hprogress hfree ⟨1, hsleep⟩⟩

end SleepLockMachine

end Xv6Kernel
