import Xv6Kernel.CyclicScan
import Mathlib.Logic.Function.Basic

/-!
# The process table

`struct proc` and the loops over `ptable.proc` of `proc.c`, as functions on a
table of `nproc` slots.  A pointer into the table is a slot, a null pointer is
`none`.  The functions here are the parts of `proc.c` that run with
`ptable.lock` held; who holds the lock, and when, is the subject of
`ProcSystem`.

The memory image, trap frame, open files, current directory and name of a
process play no part in the scheduling logic and are not fields here.
-/

namespace Xv6Kernel

open CyclicScan List

abbrev nproc : ℕ := 64

instance : NeZero nproc := ⟨by decide⟩

/-- A pointer to an element of `ptable.proc`. -/
abbrev Slot := Fin nproc

/-- A page handed out by `kalloc` or `setupkvm`. -/
abbrev Page := ℕ

inductive ProcState
  | unused
  | embryo
  | sleeping
  | runnable
  | running
  | zombie
  deriving DecidableEq, Repr

/-- A sleep channel: the address of a slot, as used by `wait`, or any other
kernel address. -/
inductive Chan
  | proc (slot : Slot)
  | addr (a : ℕ)
  deriving DecidableEq, Repr

structure Proc where
  pgdir : Option Page
  kstack : Option Page
  state : ProcState
  pid : ℤ
  parent : Option Slot
  chan : Option Chan
  killed : Bool
  priority : ℤ
  counter : ℤ
  deriving DecidableEq, Repr

abbrev Table := Slot → Proc

def Proc.zero : Proc where
  pgdir := none
  kstack := none
  state := .unused
  pid := 0
  parent := none
  chan := none
  killed := false
  priority := 0
  counter := 0

/-- The loop `for(p = ptable.proc; p < &ptable.proc[NPROC]; p++)`, left at the
first slot that passes the test. -/
def findSlot (test : Slot → Bool) : Option Slot :=
  (List.finRange nproc).find? test

/-- `nextpid++` on a 32-bit `int`. -/
def succPid (nextpid : ℤ) : ℤ :=
  Int.bmod (nextpid + 1) (2 ^ 32)

def findUnused (table : Table) : Option Slot :=
  findSlot fun p => (table p).state = .unused

/-- What `allocproc` writes at its label `found`. -/
def Proc.embryo (nextpid : ℤ) (p : Proc) : Proc :=
  { p with state := .embryo, pid := nextpid, priority := 5, counter := 0 }

def wakeOne (chan : Option Chan) (p : Proc) : Proc :=
  if p.state = .sleeping ∧ p.chan = chan then { p with state := .runnable }
  else p

def wakeup1 (chan : Option Chan) (table : Table) : Table :=
  fun p => wakeOne chan (table p)

def setPriority (pid newPriority : ℤ) (table : Table) : Table × ℤ :=
  if newPriority ≤ 0 ∨ 20 < newPriority then (table, -1)
  else
    match findSlot fun p => (table p).pid = pid with
    | some p =>
        (Function.update table p { table p with priority := newPriority }, 0)
    | none => (table, 0)

def getPriority (pid : ℤ) (table : Table) : ℤ :=
  match findSlot fun p => (table p).pid = pid with
  | some p => (table p).priority
  | none => -1

def killOne (p : Proc) : Proc :=
  { p with
    killed := true
    state := if p.state = .sleeping then .runnable else p.state }

def kill (pid : ℤ) (table : Table) : Table × ℤ :=
  match findSlot fun p => (table p).pid = pid with
  | some p => (Function.update table p (killOne (table p)), 0)
  | none => (table, -1)

def passToInit (curproc : Slot) (initproc : Option Slot) (table : Table) (p : Slot) : Table :=
  if (table p).parent = some curproc then
    let table := Function.update table p { table p with parent := initproc }
    if (table p).state = .zombie then wakeup1 (initproc.map .proc) table
    else table
  else table

/-- The table after `exit` has set its own state, just before `sched`. -/
def exitTable (curproc : Slot) (initproc : Option Slot) (table : Table) : Table :=
  let woken := wakeup1 ((table curproc).parent.map .proc) table
  let passed := (List.finRange nproc).foldl (passToInit curproc initproc) woken
  Function.update passed curproc { passed curproc with state := .zombie }

/-- How one scan of the table by `wait` ends. -/
inductive WaitScan
  | reap (p : Slot)
  | fail
  | sleep
  deriving DecidableEq, Repr

def waitScan (curproc : Slot) (table : Table) : WaitScan :=
  match findSlot fun p =>
      (table p).parent = some curproc ∧ (table p).state = .zombie with
  | some p => .reap p
  | none =>
      let havekids := (findSlot fun p => (table p).parent = some curproc).isSome
      if havekids = false ∨ (table curproc).killed = true then .fail
      else .sleep

/-- What `wait` writes to the slot of a zombie child.  The page directory is
freed and its pointer left in place. -/
def Proc.reaped (p : Proc) : Proc :=
  { p with
    kstack := none
    pid := 0
    parent := none
    killed := false
    state := .unused }

/-- The two inner loops of `scheduler`: from `p` to the end of the table and
then from its beginning to `p`, keeping in `highestp` the first RUNNABLE slot
of strictly greater priority. -/
def highestp (table : Table) (p : Slot) : Slot :=
  firstMax (fun q => (table q).state = .runnable) (fun q => (table q).priority)
    p (scanOrder nproc p.val)

/-- One round of the aging loop of `proc_3.c`. -/
def ageOne (p : Proc) : Proc :=
  if p.state ≠ .runnable ∧ p.state ≠ .running then p
  else
    if p.counter + 1 = 50 then
      { p with
        counter := 0
        priority := if p.priority < 20 then p.priority + 1 else p.priority }
    else { p with counter := p.counter + 1 }

variable {p q curproc : Slot} {table : Table}

theorem findSlot_eq_some {test : Slot → Bool} (hfind : findSlot test = some p) : test p = true :=
  find?_some hfind

theorem findSlot_eq_none {test : Slot → Bool}
    (hfind : findSlot test = none) (p : Slot) : test p = false := by
  have hnone := find?_eq_none.mp hfind p (mem_finRange p)
  simpa using hnone

theorem findUnused_state (hfind : findUnused table = some p) : (table p).state = .unused := by
  simpa using findSlot_eq_some hfind

@[simp] theorem wakeup1_apply (chan : Option Chan) (table : Table) (p : Slot) :
    wakeup1 chan table p = wakeOne chan (table p) := rfl

theorem waitScan_reap (hscan : waitScan curproc table = .reap p) :
    (table p).parent = some curproc ∧ (table p).state = .zombie := by
  unfold waitScan at hscan
  split at hscan
  next q hfind =>
    obtain rfl : q = p := by simpa using hscan
    simpa using findSlot_eq_some hfind
  next =>
    dsimp only at hscan
    split at hscan <;> simp at hscan

theorem highestp_runnable (hp : (table p).state = .runnable) :
    (table (highestp table p)).state = .runnable := by
  have hspec := firstMax_spec
    (fun q => decide ((table q).state = .runnable))
    (fun q => (table q).priority) p (scanOrder nproc p.val)
  obtain ⟨_, _, hsame | ⟨_, _, _, helig, _⟩⟩ := hspec
  · unfold highestp
    rw [hsame]
    exact hp
  · simpa [highestp] using helig

theorem highestp_priority_le (p : Slot) (hq : (table q).state = .runnable) :
    (table q).priority ≤ (table (highestp table p)).priority := by
  have hspec := firstMax_spec
    (fun q => decide ((table q).state = .runnable))
    (fun q => (table q).priority) p (scanOrder nproc p.val)
  exact hspec.1 q (mem_scanOrder p.val q) (by simpa using hq)

theorem highestp_first (table : Table) (p : Slot) :
    ∃ before after, scanOrder nproc p.val = before ++ highestp table p :: after ∧
      ∀ q ∈ before, (table q).state = .runnable →
        (table q).priority < (table (highestp table p)).priority := by
  have hspec := firstMax_spec
    (fun q => decide ((table q).state = .runnable))
    (fun q => (table q).priority) p (scanOrder nproc p.val)
  obtain ⟨_, _, hsame | ⟨before, after, hsplit, _, _, hbefore⟩⟩ := hspec
  · refine ⟨[], (finRange nproc).drop (p.val + 1) ++ (finRange nproc).take p.val, ?_, by simp⟩
    unfold highestp
    rw [hsame, nil_append]
    exact scanOrder_eq_cons p
  · refine ⟨before, after, hsplit, ?_⟩
    intro q hq hrunnable
    exact hbefore q hq (by simpa using hrunnable)

theorem highestp_gap_le {r : Slot} (hp : (table p).state = .runnable)
    (hr : (table r).state = .runnable)
    (hmax : ∀ q, (table q).state = .runnable → (table q).priority ≤ (table r).priority) :
    cyclicGap nproc p.val (highestp table p).val ≤
      cyclicGap nproc p.val r.val := by
  apply firstMax_scanOrder_gap_le
  · simpa using hr
  · intro q hq
    exact hmax q (by simpa using hq)
  · simpa using hp

/-- The second slot is the first one with at most its parent changed and, if
it was SLEEPING, possibly made RUNNABLE. -/
structure Proc.WokenFrom (before after : Proc) : Prop where
  pgdir : after.pgdir = before.pgdir
  kstack : after.kstack = before.kstack
  pid : after.pid = before.pid
  chan : after.chan = before.chan
  killed : after.killed = before.killed
  priority : after.priority = before.priority
  counter : after.counter = before.counter
  state : after.state = before.state ∨
    before.state = .sleeping ∧ after.state = .runnable

theorem Proc.WokenFrom.refl (p : Proc) : p.WokenFrom p := by
  constructor <;> simp

theorem Proc.WokenFrom.trans {first second third : Proc} (hfirst : first.WokenFrom second)
    (hsecond : second.WokenFrom third) : first.WokenFrom third := by
  constructor
  · exact hsecond.pgdir.trans hfirst.pgdir
  · exact hsecond.kstack.trans hfirst.kstack
  · exact hsecond.pid.trans hfirst.pid
  · exact hsecond.chan.trans hfirst.chan
  · exact hsecond.killed.trans hfirst.killed
  · exact hsecond.priority.trans hfirst.priority
  · exact hsecond.counter.trans hfirst.counter
  · rcases hfirst.state with hsame | ⟨hsleep, hrun⟩
    · rw [← hsame]
      exact hsecond.state
    · right
      refine ⟨hsleep, ?_⟩
      rcases hsecond.state with hsame' | ⟨hsleep', _⟩
      · rw [hsame', hrun]
      · rw [hrun] at hsleep'
        contradiction

theorem wakeOne_wokenFrom (chan : Option Chan) (p : Proc) : p.WokenFrom (wakeOne chan p) := by
  unfold wakeOne
  split
  next hsleep => constructor <;> simp [hsleep.1]
  next => exact Proc.WokenFrom.refl p

theorem passToInit_wokenFrom (curproc : Slot) (initproc : Option Slot) (table : Table)
    (p q : Slot) : (table q).WokenFrom (passToInit curproc initproc table p q) := by
  have hupdate : (table q).WokenFrom
      (Function.update table p { table p with parent := initproc } q) := by
    by_cases heq : q = p
    · subst q
      constructor <;> simp
    · simp [heq, Proc.WokenFrom.refl]
  unfold passToInit
  split
  · dsimp only
    split
    · exact hupdate.trans (wakeOne_wokenFrom _ _)
    · exact hupdate
  · exact Proc.WokenFrom.refl _

theorem passToInit_foldl_wokenFrom (curproc : Slot) (initproc : Option Slot)
    (slots : List Slot) (table : Table) (q : Slot) :
    (table q).WokenFrom
      (slots.foldl (passToInit curproc initproc) table q) := by
  induction slots generalizing table with
  | nil => exact Proc.WokenFrom.refl _
  | cons p rest ih =>
    exact (passToInit_wokenFrom curproc initproc table p q).trans
      (ih (passToInit curproc initproc table p))

theorem exitTable_wokenFrom (initproc : Option Slot) (table : Table)
    (hne : q ≠ curproc) : (table q).WokenFrom (exitTable curproc initproc table q) := by
  unfold exitTable
  simp only [Function.update, hne, dite_false]
  exact (wakeOne_wokenFrom ((table curproc).parent.map .proc) (table q)).trans
    (passToInit_foldl_wokenFrom curproc initproc (finRange nproc)
      (wakeup1 ((table curproc).parent.map .proc) table) q)

theorem exitTable_self (curproc : Slot) (initproc : Option Slot)
    (table : Table) :
    (exitTable curproc initproc table curproc).state = .zombie ∧
      (table curproc).WokenFrom
        { exitTable curproc initproc table curproc with
          state := (table curproc).state } := by
  have hfold := (wakeOne_wokenFrom ((table curproc).parent.map .proc)
    (table curproc)).trans
    (passToInit_foldl_wokenFrom curproc initproc (finRange nproc)
      (wakeup1 ((table curproc).parent.map .proc) table) curproc)
  refine ⟨by simp [exitTable], ?_⟩
  constructor <;> simp only [exitTable, Function.update_self]
  · exact hfold.pgdir
  · exact hfold.kstack
  · exact hfold.pid
  · exact hfold.chan
  · exact hfold.killed
  · exact hfold.priority
  · exact hfold.counter
  · simp

@[simp] theorem wakeOne_parent (chan : Option Chan) (p : Proc) :
    (wakeOne chan p).parent = p.parent := by
  unfold wakeOne
  split <;> rfl

theorem passToInit_parent (curproc : Slot) (initproc : Option Slot) (table : Table) (p q : Slot) :
    (passToInit curproc initproc table p q).parent =
      if q = p ∧ (table q).parent = some curproc then initproc
      else (table q).parent := by
  unfold passToInit
  by_cases hq : q = p
  · subst q
    by_cases hparent : (table p).parent = some curproc
    · by_cases hzombie : (table p).state = .zombie <;> simp [hparent, hzombie]
    · simp [hparent]
  · by_cases hparent : (table p).parent = some curproc
    · by_cases hzombie : (table p).state = .zombie <;>
        simp [hparent, hzombie, hq]
    · simp [hparent, hq]

theorem passToInit_foldl_parent (curproc : Slot) (initproc : Option Slot)
    (slots : List Slot) (hnodup : slots.Nodup) (table : Table) (q : Slot) :
    (slots.foldl (passToInit curproc initproc) table q).parent =
      if q ∈ slots ∧ (table q).parent = some curproc then initproc
      else (table q).parent := by
  induction slots generalizing table with
  | nil => simp
  | cons p rest ih =>
    obtain ⟨hp, hrest⟩ := nodup_cons.mp hnodup
    rw [foldl_cons, ih hrest, passToInit_parent]
    by_cases hq : q = p
    · subst q
      simp [hp]
    · simp [hq]

theorem exitTable_parent (curproc : Slot) (initproc : Option Slot) (table : Table) (q : Slot) :
    (exitTable curproc initproc table q).parent =
      if (table q).parent = some curproc then initproc
      else (table q).parent := by
  have hfold := passToInit_foldl_parent curproc initproc (finRange nproc)
    (nodup_finRange nproc)
    (wakeup1 ((table curproc).parent.map .proc) table) q
  simp only [mem_finRange, true_and, wakeup1_apply, wakeOne_parent] at hfold
  unfold exitTable
  by_cases hq : q = curproc
  · subst q
    simpa using hfold
  · simpa [hq] using hfold

def SleepsOnSelf (table : Table) (p : Slot) : Prop :=
  (table p).state = .sleeping ∧ (table p).chan = some (.proc p)

theorem Proc.WokenFrom.sleepsOnSelf {before after : Table} (hwoken : (before p).WokenFrom (after p))
    (hsleeps : SleepsOnSelf after p) : SleepsOnSelf before p := by
  obtain ⟨hstate, hchan⟩ := hsleeps
  refine ⟨?_, hwoken.chan ▸ hchan⟩
  rcases hwoken.state with hsame | ⟨_, hrunnable⟩
  · rw [← hsame, hstate]
  · rw [hstate] at hrunnable
    contradiction

theorem wakeup1_not_sleepsOnSelf (table : Table) (p : Slot) :
    ¬ SleepsOnSelf (wakeup1 (some (.proc p)) table) p := by
  rintro ⟨hstate, hchan⟩
  rw [wakeup1_apply] at hstate hchan
  have hwoken := wakeOne_wokenFrom (some (.proc p)) (table p)
  rw [hwoken.chan] at hchan
  unfold wakeOne at hstate
  split at hstate
  next => contradiction
  next hawake => exact hawake ⟨hstate, hchan⟩

theorem passToInit_foldl_wakes {init : Slot} {slots : List Slot} (hmem : q ∈ slots)
    (hparent : (table q).parent = some curproc) (hzombie : (table q).state = .zombie) :
    ¬ SleepsOnSelf (slots.foldl (passToInit curproc (some init)) table)
      init := by
  induction slots generalizing table with
  | nil => simp at hmem
  | cons p rest ih =>
    rw [foldl_cons]
    by_cases hq : q = p
    · subst q
      intro hsleeps
      have hbefore := (passToInit_foldl_wokenFrom curproc (some init) rest
        (passToInit curproc (some init) table p) init).sleepsOnSelf hsleeps
      unfold passToInit at hbefore
      simp only [hparent, if_true, Function.update_self, hzombie, Option.map_some] at hbefore
      exact wakeup1_not_sleepsOnSelf _ init hbefore
    · apply ih
      · exact mem_of_ne_of_mem hq hmem
      · rw [passToInit_parent]
        simp [hq, hparent]
      · have hwoken := passToInit_wokenFrom curproc (some init) table p q
        rcases hwoken.state with hsame | ⟨hsleep, _⟩
        · rw [hsame, hzombie]
        · rw [hzombie] at hsleep
          contradiction

theorem exitTable_sleepsOnSelf {initproc : Option Slot}
    (hne : p ≠ curproc) (hsleeps : SleepsOnSelf (exitTable curproc initproc table) p) :
    SleepsOnSelf table p ∧ (table curproc).parent ≠ some p ∧
      (initproc = some p → ∀ q, (table q).parent = some curproc →
        (table q).state ≠ .zombie) := by
  have hfold : SleepsOnSelf ((finRange nproc).foldl
      (passToInit curproc initproc)
      (wakeup1 ((table curproc).parent.map .proc) table)) p := by
    simpa [exitTable, SleepsOnSelf, hne] using hsleeps
  refine ⟨(exitTable_wokenFrom initproc table hne).sleepsOnSelf hsleeps, ?_, ?_⟩
  · intro hparent
    rw [hparent] at hfold
    exact wakeup1_not_sleepsOnSelf table p
      ((passToInit_foldl_wokenFrom curproc initproc (finRange nproc)
        (wakeup1 (some (.proc p)) table) p).sleepsOnSelf hfold)
  · intro hinit q hchild hzombie
    subst hinit
    refine passToInit_foldl_wakes (mem_finRange q) ?_ ?_ hfold
    · simpa using hchild
    · rcases (wakeOne_wokenFrom ((table curproc).parent.map .proc)
        (table q)).state with hsame | ⟨hsleep, _⟩
      · rw [wakeup1_apply, hsame, hzombie]
      · rw [hzombie] at hsleep
        contradiction

end Xv6Kernel
