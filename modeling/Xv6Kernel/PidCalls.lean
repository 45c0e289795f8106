import Xv6Kernel.SchedulerAging

/-!
# Calls that name a process by its pid

`kill`, `set_priority` and `get_priority` search the table for a pid and never
look at the state of the slot they find.  An UNUSED slot has pid 0 before its
first use and after `wait`, and the pid of the child that was not made after a
failed `fork`; so the search may end at a slot without a process.
-/

namespace Xv6Kernel

open TraceExecution

def HasPid (table : Table) (pid : ℤ) (p : Slot) : Prop :=
  (table p).pid = pid ∧ (table p).state ≠ .unused

instance (table : Table) (pid : ℤ) (p : Slot) : Decidable (HasPid table pid p) :=
  inferInstanceAs (Decidable (_ ∧ _))

def findPid (table : Table) (pid : ℤ) : Option Slot :=
  findSlot fun p => (table p).pid = pid

/-- The calls act on the process with the given pid, and fail without changing
anything if there is none. -/
structure PidCalls (table : Table) (pid : ℤ) : Prop where
  missing : (∀ p, ¬ HasPid table pid p) →
    kill pid table = (table, -1) ∧ getPriority pid table = -1 ∧
      ∀ v, setPriority pid v table = (table, -1)
  found : ∀ p, HasPid table pid p → ∃ q, HasPid table pid q ∧
    kill pid table = (Function.update table q (killOne (table q)), 0) ∧
    ∀ v, 1 ≤ v → v ≤ 20 →
      setPriority pid v table =
        (Function.update table q { table q with priority := v }, 0) ∧
      getPriority pid (setPriority pid v table).1 = v

section Search

variable {table : Table} {pid v : ℤ} {q : Slot}

theorem findPid_eq_none_iff : findPid table pid = none ↔ ∀ p, (table p).pid ≠ pid := by
  constructor
  · intro hfind p
    simpa using findSlot_eq_none hfind p
  · intro hall
    unfold findPid findSlot
    rw [List.find?_eq_none]
    intro p _
    simpa using hall p

theorem findPid_pid (hfind : findPid table pid = some q) : (table q).pid = pid := by
  simpa using findSlot_eq_some hfind

theorem kill_of_findPid (hfind : findPid table pid = some q) :
    kill pid table = (Function.update table q (killOne (table q)), 0) := by
  unfold findPid at hfind
  simp only [kill, hfind]

theorem kill_of_not_found (hfind : findPid table pid = none) : kill pid table = (table, -1) := by
  unfold findPid at hfind
  simp only [kill, hfind]

theorem getPriority_of_findPid (hfind : findPid table pid = some q) :
    getPriority pid table = (table q).priority := by
  unfold findPid at hfind
  simp only [getPriority, hfind]

theorem getPriority_of_not_found (hfind : findPid table pid = none) :
    getPriority pid table = -1 := by
  unfold findPid at hfind
  simp only [getPriority, hfind]

theorem setPriority_of_findPid (hfind : findPid table pid = some q)
    (hlow : 1 ≤ v) (hhigh : v ≤ 20) :
    setPriority pid v table =
      (Function.update table q { table q with priority := v }, 0) := by
  have hrange : ¬ (v ≤ 0 ∨ 20 < v) := by omega
  unfold findPid at hfind
  simp only [setPriority, if_neg hrange, hfind]

theorem setPriority_result (table : Table) (pid : ℤ) (hlow : 1 ≤ v) (hhigh : v ≤ 20) :
    (setPriority pid v table).2 = 0 := by
  have hrange : ¬ (v ≤ 0 ∨ 20 < v) := by omega
  unfold setPriority
  rw [if_neg hrange]
  split <;> rfl

theorem setPriority_of_range (hrange : ¬ (1 ≤ v ∧ v ≤ 20)) :
    setPriority pid v table = (table, -1) := by
  unfold setPriority
  rw [if_pos (by omega)]

theorem findPid_update_priority :
    findPid (Function.update table q { table q with priority := v }) pid =
      findPid table pid := by
  unfold findPid
  congr 1
  funext p
  by_cases hp : p = q
  · subst p
    simp
  · simp [hp]

theorem pidCalls_iff (table : Table) (pid : ℤ) :
    PidCalls table pid ↔
      ∃ q, findPid table pid = some q ∧ (table q).state ≠ .unused := by
  constructor
  · intro hcalls
    by_cases hlive : ∃ p, HasPid table pid p
    · obtain ⟨p, hp⟩ := hlive
      obtain ⟨q, hq, _, hset⟩ := hcalls.found p hp
      cases hfind : findPid table pid with
      | none => exact absurd hp.1 (findPid_eq_none_iff.mp hfind p)
      | some r =>
        refine ⟨r, rfl, ?_⟩
        intro hunused
        have hne : r ≠ q := by
          rintro rfl
          exact hq.2 hunused
        -- One of two values differs from the priority that the slot has.
        have hkept : ∀ v, 1 ≤ v → v ≤ 20 → (table r).priority = v := by
          intro v hlow hhigh
          have hboth := (setPriority_of_findPid hfind hlow hhigh).symm.trans (hset v hlow hhigh).1
          have hslot := congrFun (congrArg Prod.fst hboth) r
          simp only [Function.update_self, Function.update_of_ne hne] at hslot
          rw [← hslot]
        have hone := hkept 1 (by omega) (by omega)
        have htwo := hkept 2 (by omega) (by omega)
        omega
    · have hnone := (hcalls.missing (not_exists.mp hlive)).2.2 1
      have hresult := setPriority_result table pid (v := 1) (by omega) (by omega)
      rw [hnone] at hresult
      cases hresult
  · rintro ⟨q, hfind, hstate⟩
    have hq : HasPid table pid q := ⟨findPid_pid hfind, hstate⟩
    refine ⟨fun hmissing => absurd hq (hmissing q), ?_⟩
    intro p _
    refine ⟨q, hq, kill_of_findPid hfind, ?_⟩
    intro v hlow hhigh
    have hset := setPriority_of_findPid hfind hlow hhigh
    refine ⟨hset, ?_⟩
    have hagain : findPid (setPriority pid v table).1 pid = some q := by
      rw [hset, findPid_update_priority, hfind]
    rw [getPriority_of_findPid hagain, hset]
    simp

end Search

variable {C : Type} [DecidableEq C]

theorem priority_nonneg_of_booted {source : SchedSource} {s : Kernel C}
    (hbooted : Kernel.Booted source s) (p : Slot) : 0 ≤ (s.proc p).priority := by
  apply Reachable.invariant (P := fun s => ∀ p, 0 ≤ (s.proc p).priority) _ _ hbooted
  · rintro s ⟨bootCpu, rfl⟩ p
    simp [Kernel.initial, Proc.zero]
  · rintro s ⟨c, action⟩ next hrange hstep p
    exact ((Kernel.step_ok hstep).priorityChange p).le_priority (by decide) (hrange p)

/-- In every reachable table the calls act on the process with the given pid, and
on it alone, exactly when the first slot with that pid is not UNUSED.  For a pid
that no process has, `kill` and `get_priority` fail exactly when no slot has it
either, and `set_priority` only for a priority out of range. -/
theorem pid_calls_act_on_process {source : SchedSource} {s : Kernel C}
    (hbooted : Kernel.Booted source s) (pid : ℤ) :
    (PidCalls s.proc pid ↔
      ∃ q, findPid s.proc pid = some q ∧ (s.proc q).state ≠ .unused) ∧
    ((∀ p, ¬ HasPid s.proc pid p) →
      (kill pid s.proc = (s.proc, -1) ↔ ∀ p, (s.proc p).pid ≠ pid) ∧
      (getPriority pid s.proc = -1 ↔ ∀ p, (s.proc p).pid ≠ pid) ∧
      ∀ v, setPriority pid v s.proc = (s.proc, -1) ↔ ¬ (1 ≤ v ∧ v ≤ 20)) := by
  refine ⟨pidCalls_iff s.proc pid, fun _ => ⟨?_, ?_, ?_⟩⟩
  · rw [← findPid_eq_none_iff]
    refine ⟨?_, kill_of_not_found⟩
    intro hkill
    cases hfind : findPid s.proc pid with
    | none => rfl
    | some q =>
        rw [kill_of_findPid hfind] at hkill
        cases congrArg Prod.snd hkill
  · rw [← findPid_eq_none_iff]
    refine ⟨?_, getPriority_of_not_found⟩
    intro hget
    cases hfind : findPid s.proc pid with
    | none => rfl
    | some q =>
        have hnonneg := priority_nonneg_of_booted hbooted q
        rw [getPriority_of_findPid hfind] at hget
        omega
  · intro v
    refine ⟨?_, setPriority_of_range⟩
    rintro hset ⟨hlow, hhigh⟩
    have hresult := setPriority_result s.proc pid hlow hhigh
    rw [hset] at hresult
    cases hresult

def initRuns : List (Unit × Action) :=
  [((), .userinitAlloc (some 1) (some 2)), ((), .userinitPublish),
    ((), .acquirePtable), ((), .dispatch 0), ((), .forkret)]

def initAlone : Kernel Unit :=
  (exec (Kernel.step .proc) (Kernel.initial ()) initRuns).getD (Kernel.initial ())

theorem initAlone_booted : Kernel.Booted .proc initAlone :=
  ⟨_, initRuns, ⟨(), rfl⟩, rfl⟩

theorem pid_calls_act_on_process_init : PidCalls initAlone.proc 1 :=
  (pid_calls_act_on_process initAlone_booted 1).1.mpr ⟨0, by decide, by decide⟩

/-- There are no processes with the pids 0 and 2; but `kill(0)` marks slot 1 and
reports success, and `set_priority(2, 5)` reports success as well. -/
theorem pid_calls_miss_process :
    Kernel.Booted .proc initAlone ∧
      (∀ p, ¬ HasPid initAlone.proc 0 p) ∧ (kill 0 initAlone.proc).2 = 0 ∧
      (initAlone.proc 1).killed = false ∧
      ((kill 0 initAlone.proc).1 1).killed = true ∧
      (∀ p, ¬ HasPid initAlone.proc 2 p) ∧
      (setPriority 2 5 initAlone.proc).2 = 0 := by
  refine ⟨initAlone_booted, ?_, rfl, rfl, rfl, ?_, rfl⟩
  · decide
  · decide

end Xv6Kernel
