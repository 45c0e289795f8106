import Xv6Kernel.SleepLock
import Xv6Kernel.ThreadPrograms

/-!
# The guards of `iunlock`, `brelse` and `bwrite`

Inodes and buffers are protected by sleep-locks, and the functions that need the
lock ask `holdingsleep` first.  The critical sections of `sleeplock.c` are the
operations here; `owner` records which process has taken a lock and not seen it
released.  Processes call the functions in any order and for any inode or buffer,
whether they hold its lock or not.

`holdingsleep` returns `lk->locked` and does not look at `lk->pid`, so a guard
notices a caller without the lock only if nobody has it.
-/

namespace Xv6Kernel

open TraceExecution ThreadPrograms

/-- The locks of inodes `I` and buffers `B`, with the fields that the guarded
functions use. -/
structure GuardState (P I B : Type) where
  lock : I ⊕ B → SleepLock
  owner : I ⊕ B → Option P
  ref : I → ℤ
  refcnt : B → ℤ
  dirty : B → Bool
  written : List B

inductive GuardOp (I B : Type)
  | acquiresleep (lk : I ⊕ B)
  | releasesleep (lk : I ⊕ B)
  | holdingsleep (lk : I ⊕ B)
  | readRef (ip : I)
  | addRef (ip : I) (n : ℤ)
  | unref (b : B)
  | setDirty (b : B)
  | iderw (b : B)
  | panic (msg : String)

@[reducible] def GuardOp.Resp {I B : Type} : GuardOp I B → Type
  | .holdingsleep _ => Bool
  | .readRef _ => ℤ
  | _ => Unit

section Model

variable {P I B : Type} [DecidableEq I] [DecidableEq B]

/-- What an operation does for process `p`, whose pid is `pid p`. -/
def GuardOp.run (pid : P → ℤ) (p : P) :
    (o : GuardOp I B) → GuardState P I B → Outcome (o.Resp × GuardState P I B)
  | .acquiresleep lk, s => do
      await ((s.lock lk).locked = false)
      return ((),
        { s with
          lock := Function.update s.lock lk ⟨true, pid p⟩
          owner := Function.update s.owner lk (some p) })
  | .releasesleep lk, s =>
      pure ((),
        { s with
          lock := Function.update s.lock lk ⟨false, 0⟩
          owner := Function.update s.owner lk none })
  | .holdingsleep lk, s => pure ((s.lock lk).locked, s)
  | .readRef ip, s => pure (s.ref ip, s)
  | .addRef ip n, s => pure ((), { s with ref := Function.update s.ref ip (s.ref ip + n) })
  | .unref b, s =>
      pure ((), { s with refcnt := Function.update s.refcnt b (s.refcnt b - 1) })
  | .setDirty b, s => pure ((), { s with dirty := Function.update s.dirty b true })
  | .iderw b, s => pure ((), { s with written := s.written ++ [b] })
  | .panic msg, _ => TraceExecution.panic msg

abbrev GuardCode (I B α : Type) := Prog (GuardOp I B) GuardOp.Resp α

def guardOp {I B : Type} (o : GuardOp I B) : GuardCode I B o.Resp :=
  ThreadPrograms.perform o

/-- The functions that ask `holdingsleep`. -/
inductive GuardedCall (I B : Type)
  | iunlock (ip : I)
  | brelse (b : B)
  | bwrite (b : B)
  deriving DecidableEq

namespace GuardedCall

variable {I B : Type}

def lock : GuardedCall I B → I ⊕ B
  | .iunlock ip => .inl ip
  | .brelse b => .inr b
  | .bwrite b => .inr b

def msg : GuardedCall I B → String
  | .iunlock _ => "iunlock"
  | .brelse _ => "brelse"
  | .bwrite _ => "bwrite"

def rest : GuardedCall I B → GuardCode I B Unit
  | .iunlock ip => do
      let ref : ℤ ← guardOp (.readRef ip)
      if ref < 1 then guardOp (.panic "iunlock")
      else guardOp (.releasesleep (.inl ip))
  | .brelse b => do
      let _ ← guardOp (.releasesleep (.inr b))
      guardOp (.unref b)
  | .bwrite b => do
      let _ ← guardOp (.setDirty b)
      guardOp (.iderw b)

def body (c : GuardedCall I B) : GuardCode I B Unit := do
  let holding : Bool ← guardOp (.holdingsleep c.lock)
  if holding = false then guardOp (.panic c.msg) else c.rest

end GuardedCall

/-- Beside the guarded functions, processes take and release locks as `ilock`,
`bget` and `iput` do, and change the reference count of an inode. -/
inductive GuardCall (I B : Type)
  | acquiresleep (lk : I ⊕ B)
  | releasesleep (lk : I ⊕ B)
  | addRef (ip : I) (n : ℤ)
  | guarded (c : GuardedCall I B)

def GuardCall.body {I B : Type} : GuardCall I B → GuardCode I B Unit
  | .acquiresleep lk => guardOp (.acquiresleep lk)
  | .releasesleep lk => guardOp (.releasesleep lk)
  | .addRef ip n => guardOp (.addRef ip n)
  | .guarded c => c.body

abbrev GuardPool (P I B : Type) :=
  Pool P (GuardState P I B) (GuardOp I B) GuardOp.Resp

def guardSystem (I B : Type) [DecidableEq I] [DecidableEq B] (pid : P → ℤ) :
    System P (GuardState P I B) (GuardOp I B) GuardOp.Resp (GuardCall I B) where
  run := GuardOp.run pid
  body := GuardCall.body
  may := fun _ _ => true

def GuardInitial (s : GuardPool P I B) : Prop :=
  (∀ lk, s.shared.lock lk = ⟨false, 0⟩ ∧ s.shared.owner lk = none) ∧
    ∀ p, s.thread p = .ret ()

/-- A lock is locked as long as it has an owner, and carries its pid. -/
def OwnersOk (pid : P → ℤ) (s : GuardState P I B) : Prop :=
  ∀ lk, match s.owner lk with
    | some p => s.lock lk = ⟨true, pid p⟩
    | none => s.lock lk = ⟨false, 0⟩

variable {pid : P → ℤ} {s t : GuardState P I B} {p : P}

omit [DecidableEq I] [DecidableEq B] in
theorem OwnersOk.locked_iff (h : OwnersOk pid s) (lk : I ⊕ B) :
    (s.lock lk).locked = true ↔ s.owner lk ≠ none := by
  have hlk := h lk
  cases howner : s.owner lk with
  | none | some =>
    rw [howner] at hlk
    simp [hlk]

theorem OwnersOk.run {o : GuardOp I B} {r : o.Resp} (h : OwnersOk pid s)
    (hrun : GuardOp.run pid p o s = .ok (r, t)) : OwnersOk pid t := by
  cases o with
  | acquiresleep lk =>
    simp only [GuardOp.run, bind_eq_ok, pure_eq_ok] at hrun
    obtain ⟨-, -, hrun⟩ := hrun
    cases hrun
    intro lk'
    by_cases hlk : lk' = lk
    · subst lk'
      simp
    · simpa [hlk] using h lk'
  | releasesleep lk =>
    cases hrun
    intro lk'
    by_cases hlk : lk' = lk
    · subst lk'
      simp
    · simpa [hlk] using h lk'
  | panic msg => cases hrun
  | holdingsleep _ | readRef _ | addRef _ _ | unref _ | setDirty _ | iderw _ =>
    cases hrun
    exact h

variable [DecidableEq P]

theorem ownersOk_of_reachable {s : GuardPool P I B}
    (hs : Reachable (guardSystem I B pid).step GuardInitial s) : OwnersOk pid s.shared := by
  apply hs.invariant (P := fun s => OwnersOk pid s.shared)
  · rintro u ⟨hlocks, -⟩ lk
    obtain ⟨hlock, howner⟩ := hlocks lk
    simp only [howner]
    exact hlock
  · rintro u ⟨p, move⟩ v hu hstep
    cases System.step_ok hstep with
    | call c _ _ _ => exact hu
    | advance o next r t _ hrun => exact hu.run hrun

def GuardedCall.guard (c : GuardedCall I B) (holding : Bool) : GuardCode I B Unit :=
  if holding = false then guardOp (.panic c.msg) else c.rest

theorem guard_step {s : GuardPool P I B} {c : GuardedCall I B}
    (hat : s.thread p = c.body) :
    (guardSystem I B pid).step s (p, .advance) = some
      { s with
        thread := Function.update s.thread p
          (c.guard (s.shared.lock c.lock).locked) } := by
  simp only [System.step, stepOf_eq_some, System.perform, hat]
  rfl

theorem rest_step (pid : P → ℤ) {s : GuardPool P I B} {c : GuardedCall I B}
    (hat : s.thread p = c.rest) : ∃ t, (guardSystem I B pid).perform s (p, .advance) = .ok t := by
  simp only [System.perform, hat]
  cases c with
  | iunlock | brelse | bwrite => exact ⟨_, rfl⟩

/-- The call of a process stops at its guard, without having changed anything. -/
def StopsAtGuard (pid : P → ℤ) (s : GuardPool P I B) (p : P) (c : GuardedCall I B) : Prop :=
  ∃ t, (guardSystem I B pid).step s (p, .advance) = some t ∧ t.shared = s.shared ∧
    (guardSystem I B pid).perform t (p, .advance) = panic c.msg

theorem stopsAtGuard_iff {s : GuardPool P I B} {c : GuardedCall I B} (hat : s.thread p = c.body) :
    StopsAtGuard pid s p c ↔ (s.shared.lock c.lock).locked = false := by
  cases hlocked : (s.shared.lock c.lock).locked with
  | false =>
    refine iff_of_true ⟨_, guard_step hat, rfl, ?_⟩ rfl
    simp only [System.perform, Function.update_self, hlocked]
    rfl
  | true =>
    refine iff_of_false ?_ (by simp)
    rintro ⟨t, hstep, -, hpanic⟩
    rw [guard_step hat, hlocked] at hstep
    cases hstep
    obtain ⟨u, hu⟩ := rest_step pid (s := { s with
      thread := Function.update s.thread p (c.guard true) }) (p := p) (c := c)
      (Function.update_self ..)
    rw [hu] at hpanic
    cases hpanic

/-- In every interleaving, `holdingsleep` answers a process as if it were the
owner whenever anybody owns the lock; and a guarded call of a process that does
not own the lock stops at its guard exactly when nobody does. -/
theorem guards_catch_foreign_release {s : GuardPool P I B}
    (hs : Reachable (guardSystem I B pid).step GuardInitial s) (p : P) :
    (∀ lk, ((s.shared.lock lk).locked = true → s.shared.owner lk = some p) ↔
      s.shared.owner lk = none ∨ s.shared.owner lk = some p) ∧
    ∀ c : GuardedCall I B, s.thread p = c.body → s.shared.owner c.lock ≠ some p →
      (StopsAtGuard pid s p c ↔ s.shared.owner c.lock = none) := by
  have howners := ownersOk_of_reachable hs
  refine ⟨?_, ?_⟩
  · intro lk
    rw [howners.locked_iff]
    cases howner : s.shared.owner lk with
    | none => simp
    | some q => simp
  · intro c hat _
    have hlocked := howners.locked_iff c.lock
    rw [stopsAtGuard_iff hat, ← Bool.not_eq_true, hlocked, not_not]

end Model

def guardStart : GuardPool Bool Unit Unit where
  shared :=
    { lock := fun _ => ⟨false, 0⟩
      owner := fun _ => none
      ref := fun _ => 1
      refcnt := fun _ => 1
      dirty := fun _ => false
      written := [] }
  thread := fun _ => .ret ()

def guardPid (p : Bool) : ℤ := if p then 4 else 3

def foreignBrelse : List (Bool × Move (GuardCall Unit Unit)) :=
  [(true, .call (.acquiresleep (.inr ()))), (true, .advance),
    (false, .call (.guarded (.brelse ())))]

theorem guards_catch_foreign_release_free :
    ∃ s, exec (guardSystem Unit Unit guardPid).step guardStart
        [(false, .call (.guarded (.brelse ())))] = some s ∧
      StopsAtGuard guardPid s false (.brelse ()) := by
  refine ⟨_, rfl, ?_⟩
  have hreach : Reachable (guardSystem Unit Unit guardPid).step GuardInitial
      { guardStart with
        thread := Function.update guardStart.thread false
          (GuardedCall.brelse ()).body } :=
    ⟨guardStart, [(false, .call (.guarded (.brelse ())))],
      ⟨fun _ => ⟨rfl, rfl⟩, fun _ => rfl⟩, rfl⟩
  exact ((guards_catch_foreign_release hreach false).2 (.brelse ()) rfl
    (by simp [guardStart])).mpr rfl

/-- The lock of process 4 is released by process 3, which does not panic. -/
theorem foreign_brelse_not_caught :
    ∃ s t, exec (guardSystem Unit Unit guardPid).step guardStart foreignBrelse =
        some s ∧
      s.shared.owner (.inr ()) = some true ∧
      exec (guardSystem Unit Unit guardPid).step s
        [(false, .advance), (false, .advance)] = some t ∧
      (t.shared.lock (.inr ())).locked = false :=
  ⟨_, _, rfl, rfl, rfl, rfl⟩

end Xv6Kernel
