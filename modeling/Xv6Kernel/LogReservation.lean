import Xv6Kernel.LogAdmission

/-!
# The space reserved in the log

`begin_op` admits an operation if every operation in progress, this one
included, could still log `maxOpBlocks` further blocks without `log.lh.n`
exceeding `logSize`.  Operations that keep to their share therefore never
overrun `log.lh.block`.

`log_write`, however, panics already when `log.lh.n` is `log.size - 1`, because
the first block of the log is its header.  The image that `mkfs` writes has a
log of `logSize` blocks, one less than the reservation assumes, so the call
that comes after `logSize - 1` different blocks panics.
-/

namespace Xv6Kernel

open TraceExecution LogPc Finset

variable {P : Type} [DecidableEq P]

/-- The log with a record of the blocks that each operation in progress, and
the whole group of operations since the last commit, has logged. -/
structure LogRecord (P : Type) where
  log : LogSystem P
  mine : P → Finset ℕ
  group : Finset ℕ

namespace LogRecord

def loggedBy (s : LogSystem P) : P × LogAction P → Option ℕ
  | (p, .advance) =>
      match s.pc p with
      | .logWriting blockno => some blockno
      | _ => none
  | _ => none

def recordMine (r : LogRecord P) (label : P × LogAction P) : P → Finset ℕ :=
  match loggedBy r.log label with
  | some blockno =>
      Function.update r.mine label.1 (insert blockno (r.mine label.1))
  | none =>
      if label.2 = .beginOp then Function.update r.mine label.1 ∅ else r.mine

def recordGroup (r : LogRecord P) (label : P × LogAction P) : Finset ℕ :=
  match loggedBy r.log label with
  | some blockno => insert blockno r.group
  | none =>
      if label.2 = .advance ∧ r.log.pc label.1 = .commitClear then ∅ else r.group

def step (r : LogRecord P) (label : P × LogAction P) : Option (LogRecord P) :=
  (LogSystem.step r.log label).map fun log =>
    { log := log, mine := r.recordMine label, group := r.recordGroup label }

def initial (P : Type) (size : ℤ) : LogRecord P where
  log := LogSystem.initial P size
  mine := fun _ => ∅
  group := ∅

def withinShare (r : LogRecord P) : P × LogAction P → Bool
  | (p, .logWrite blockno) => (insert blockno (r.mine p)).card ≤ maxOpBlocks
  | _ => true

structure Recorded (r : LogRecord P) : Prop where
  nodup : r.log.block.Nodup
  group : r.log.block.toFinset = r.group

omit [DecidableEq P] in
theorem Recorded.length_eq {r : LogRecord P} (hrecorded : r.Recorded) :
    r.log.block.length = r.group.card := by
  rw [← hrecorded.group, List.toFinset_card_of_nodup hrecorded.nodup]

theorem absorb_toFinset (block : List ℕ) (blockno : ℕ) :
    (absorb block blockno).toFinset = insert blockno block.toFinset := by
  unfold absorb
  split
  next hmem => rw [insert_eq_of_mem (by simpa using hmem)]
  next =>
    ext x
    simp

section Steps

variable {r r' : LogRecord P} {p : P} {action : LogAction P}

theorem step_eq_some (hstep : step r (p, action) = some r') :
    LogSystem.StepOk r.log p action r'.log ∧
      r'.mine = r.recordMine (p, action) ∧
      r'.group = r.recordGroup (p, action) := by
  simp only [step, Option.map_eq_some_iff] at hstep
  obtain ⟨log, hlog, rfl⟩ := hstep
  exact ⟨LogSystem.step_ok hlog, rfl, rfl⟩

def beginning : LogPc → Bool
  | .beginLoop | .sleepPtable | .sleepUnlock | .sleepSched | .asleep
  | .woken => true
  | _ => false

theorem unwoken_beginning : Unwoken beginning := ⟨by intro pc; cases pc <;> rfl⟩

/-- What a step does to the log and to the record. -/
inductive RecordChange (r r' : LogRecord P) (p : P) : Prop
  | logged {blockno : ℕ} (hpc : r.log.pc p = .logWriting blockno)
      (hnext : r'.log.pc p = .inOp)
      (hblock : r'.log.block = absorb r.log.block blockno)
      (hmine : r'.mine = Function.update r.mine p (insert blockno (r.mine p)))
      (hgroup : r'.group = insert blockno r.group)
  | cleared (hpc : r.log.pc p = .commitClear) (hnext : r'.log.pc p = .commitErase)
      (hblock : r'.log.block = []) (hmine : r'.mine = r.mine)
      (hgroup : r'.group = ∅)
  | begun (hpc : r.log.pc p = .outside) (hnext : r'.log.pc p = .beginLoop)
      (hblock : r'.log.block = r.log.block)
      (hmine : r'.mine = Function.update r.mine p ∅)
      (hgroup : r'.group = r.group)
  | same (hblock : r'.log.block = r.log.block) (hmine : r'.mine = r.mine)
      (hgroup : r'.group = r.group)
      (hbegin : beginning (r'.log.pc p) = true → beginning (r.log.pc p) = true)

theorem recordChange (hstep : step r (p, action) = some r') : RecordChange r r' p := by
  obtain ⟨hok, hmine, hgroup⟩ := step_eq_some hstep
  obtain ⟨log, mine, group⟩ := r'
  simp only at hok hmine hgroup
  subst hmine hgroup
  clear hstep
  cases hok
  case logWriting blockno hpc hlock =>
    refine .logged hpc (by simp) rfl ?_ ?_
    · simp [recordMine, loggedBy, hpc]
    · simp [recordGroup, loggedBy, hpc]
  case commitClear hpc =>
    refine .cleared hpc (by simp) rfl ?_ ?_
    · simp [recordMine, loggedBy, hpc]
    · simp [recordGroup, loggedBy, hpc]
  case beginOp hpc hlock =>
    refine .begun hpc (by simp) rfl ?_ ?_
    · simp [recordMine, loggedBy]
    · simp [recordGroup, loggedBy]
  all_goals
    exact .same rfl (by simp [recordMine, loggedBy, *])
      (by simp [recordGroup, loggedBy, *])
      (by simp [beginning, LogSystem.kill_pc_self, *])

theorem Recorded.step (hrecorded : r.Recorded)
    (hstep : step r (p, action) = some r') : r'.Recorded := by
  cases recordChange hstep with
  | logged _ _ hblock _ hgroup =>
    constructor
    · rw [hblock]
      exact absorb_nodup hrecorded.nodup _
    · rw [hblock, hgroup, absorb_toFinset, hrecorded.group]
  | cleared _ _ hblock _ hgroup =>
    constructor
    · simp [hblock]
    · simp [hblock, hgroup]
  | begun _ _ hblock _ hgroup | same hblock _ hgroup =>
    constructor
    · rw [hblock]
      exact hrecorded.nodup
    · rw [hblock, hgroup, hrecorded.group]

theorem mine_other (hstep : step r (p, action) = some r') {q : P} (hq : q ≠ p) :
    r'.mine q = r.mine q := by
  cases recordChange hstep with
  | logged _ _ _ hmine | begun _ _ _ hmine => simp [hmine, hq]
  | cleared _ _ _ hmine _ => rw [hmine]
  | same _ hmine _ _ => rw [hmine]

theorem inOperation_origin {s t : LogSystem P} (hok : LogSystem.StepOk s p action t)
    (hp : (t.pc p).inOperation = true) :
    (s.pc p).inOperation = true ∨ s.pc p = .beginLoop ∧ ¬ s.Full := by
  cases hok <;> simp_all [inOperation, LogSystem.kill_pc_self]

theorem logWriting_origin {s t : LogSystem P} {blockno : ℕ} (hok : LogSystem.StepOk s p action t)
    (hp : t.pc p = .logWriting blockno) : action = .logWrite blockno := by
  cases hok <;> simp_all [LogSystem.kill_pc_self]

/-! ## Operations that keep to their share -/

def unused (r : LogRecord P) (p : P) : ℕ :=
  if (r.log.pc p).inOperation then maxOpBlocks - (r.mine p).card else 0

variable [Fintype P]

structure Reserved (r : LogRecord P) : Prop where
  admission : r.log.AdmissionInvariant
  recorded : r.Recorded
  subset : ∀ p, (r.log.pc p).inOperation = true → r.mine p ⊆ r.group
  fresh : ∀ p, beginning (r.log.pc p) = true → r.mine p = ∅
  pending : ∀ p blockno, r.log.pc p = .logWriting blockno →
    (insert blockno (r.mine p)).card ≤ maxOpBlocks
  space : r.log.block.length + ∑ p, r.unused p ≤ logSize

section

variable (hreserved : r.Reserved) (hstep : step r (p, action) = some r')

include hreserved hstep

theorem Reserved.subset_step (q : P)
    (hq : (r'.log.pc q).inOperation = true) : r'.mine q ⊆ r'.group := by
  have hok := (step_eq_some hstep).1
  by_cases heq : q = p
  · subst q
    cases recordChange hstep with
    | logged hpc _ _ hmine hgroup =>
      rw [hmine, hgroup, Function.update_self]
      apply insert_subset_insert
      exact hreserved.subset p (by simp [hpc, inOperation])
    | cleared _ hnext | begun _ hnext => simp [hnext, inOperation] at hq
    | same _ hmine hgroup _ =>
      rw [hmine, hgroup]
      rcases inOperation_origin hok hq with hbefore | ⟨hpc, _⟩
      · exact hreserved.subset p hbefore
      · rw [hreserved.fresh p (by simp [hpc, beginning])]
        exact empty_subset _
  · rw [hok.unwoken_other unwoken_inOperation heq] at hq
    have hsubset := hreserved.subset q hq
    rw [mine_other hstep heq]
    cases recordChange hstep with
    | logged _ _ _ _ hgroup =>
      rw [hgroup]
      exact hsubset.trans (subset_insert _ _)
    | cleared hpc _ _ _ _ =>
      have hfree := (hreserved.admission.no_commit hq).2
      have hcommitting := hreserved.admission.committing p (by simp [hpc, inCommit])
      rw [hfree] at hcommitting
      contradiction
    | begun _ _ _ _ hgroup | same _ _ hgroup =>
      rw [hgroup]
      exact hsubset

theorem Reserved.fresh_step (q : P) (hq : beginning (r'.log.pc q) = true) : r'.mine q = ∅ := by
  by_cases heq : q = p
  · subst q
    cases recordChange hstep with
    | logged _ hnext | cleared _ hnext => simp [hnext, beginning] at hq
    | begun _ _ _ hmine _ => simp [hmine]
    | same _ hmine _ hbegin =>
      rw [hmine]
      exact hreserved.fresh p (hbegin hq)
  · rw [(step_eq_some hstep).1.unwoken_other unwoken_beginning heq] at hq
    rw [mine_other hstep heq]
    exact hreserved.fresh q hq

theorem Reserved.pending_step (hshare : r.withinShare (p, action) = true) (q : P) (blockno : ℕ)
    (hq : r'.log.pc q = .logWriting blockno) : (insert blockno (r'.mine q)).card ≤ maxOpBlocks := by
  have hok := (step_eq_some hstep).1
  by_cases heq : q = p
  · subst q
    have haction := logWriting_origin hok hq
    subst haction
    cases recordChange hstep with
    | logged _ hnext | cleared _ hnext | begun _ hnext => simp [hnext] at hq
    | same _ hmine _ _ =>
      rw [hmine]
      simpa [withinShare] using hshare
  · have hbefore : r.log.pc q = .logWriting blockno := by
      rcases hok.pc_other heq with hsame | hwoken
      · rw [← hsame, hq]
      · rw [hq] at hwoken
        cases hpc : r.log.pc q <;> simp_all [LogPc.wake]
    rw [mine_other hstep heq]
    exact hreserved.pending q blockno hbefore

end

omit [DecidableEq P] in
theorem sum_unused_le (r : LogRecord P) :
    ∑ p, r.unused p ≤ LogSystem.operationCount r.log * maxOpBlocks := by
  unfold LogSystem.operationCount
  rw [sum_mul]
  apply sum_le_sum
  intro p _
  unfold unused LogSystem.share
  split <;> simp

omit [Fintype P] in
theorem unused_other (hstep : step r (p, action) = some r') {q : P}
    (hq : q ≠ p) : r'.unused q = r.unused q := by
  unfold unused
  rw [(step_eq_some hstep).1.unwoken_other unwoken_inOperation hq, mine_other hstep hq]

omit [Fintype P] in
theorem absorb_length_add_card {block : List ℕ} {mine : Finset ℕ}
    (blockno : ℕ) (hsubset : mine ⊆ block.toFinset) :
    (absorb block blockno).length + mine.card ≤
      block.length + (insert blockno mine).card := by
  by_cases hmine : blockno ∈ mine
  · have hmem : blockno ∈ block := List.mem_toFinset.mp (hsubset hmine)
    simp [absorb, hmem, insert_eq_of_mem hmine]
  · rw [card_insert_of_notMem hmine]
    unfold absorb
    split
    · omega
    · simp only [List.length_append, List.length_singleton]
      omega

theorem Reserved.space_step (hreserved : r.Reserved) (hstep : step r (p, action) = some r') :
    r'.log.block.length + ∑ q, r'.unused q ≤ logSize := by
  have hok := (step_eq_some hstep).1
  have hspace := hreserved.space
  have hmove := sum_add_of_move p fun q hq => unused_other hstep hq
  cases recordChange hstep with
  | @logged blockno hpc hnext hblock hmine _ =>
    have hcard := hreserved.pending p blockno hpc
    have hsubset : r.mine p ⊆ r.log.block.toFinset := by
      rw [hreserved.recorded.group]
      exact hreserved.subset p (by simp [hpc, inOperation])
    have hcost := absorb_length_add_card blockno hsubset
    have hbefore : r.unused p = maxOpBlocks - (r.mine p).card := by
      simp [unused, hpc, inOperation]
    have hafter : r'.unused p =
        maxOpBlocks - (insert blockno (r.mine p)).card := by
      simp [unused, hnext, inOperation, hmine]
    rw [hblock]
    omega
  | cleared hpc hnext hblock _ _ =>
    have hafter : r'.unused p = 0 := by simp [unused, hnext, inOperation]
    simp only [hblock, List.length_nil]
    omega
  | begun _ hnext hblock _ _ =>
    have hafter : r'.unused p = 0 := by simp [unused, hnext, inOperation]
    rw [hblock]
    omega
  | same hblock hmine _ _ =>
    rw [hblock]
    by_cases hp : (r'.log.pc p).inOperation = true
    · rcases inOperation_origin hok hp with hbefore | ⟨_, hfull⟩
      · have hsame : r'.unused p = r.unused p := by
          simp [unused, hp, hbefore, hmine]
        omega
      · have hafter : r'.unused p ≤ maxOpBlocks := by
          unfold unused
          split <;> omega
        have hsum := sum_unused_le r
        have hcount := hreserved.admission.outstanding
        simp only [LogSystem.Full, not_or, not_lt] at hfull
        have hadmitted := hfull.2
        have hmax : maxOpBlocks = 10 := rfl
        rw [hcount, hmax] at hadmitted
        rw [hmax] at hsum hafter
        omega
    · have hafter : r'.unused p = 0 := by simp [unused, hp]
      omega

theorem Reserved.step (hreserved : r.Reserved) (hshare : r.withinShare (p, action) = true)
    (hstep : step r (p, action) = some r') : r'.Reserved where
  admission := hreserved.admission.step (step_eq_some hstep).1
  recorded := hreserved.recorded.step hstep
  subset := hreserved.subset_step hstep
  fresh := hreserved.fresh_step hstep
  pending := hreserved.pending_step hstep hshare
  space := hreserved.space_step hstep

omit [DecidableEq P] in
theorem reserved_initial (size : ℤ) : (initial P size).Reserved where
  admission := LogSystem.admissionInvariant_initial size
  recorded := ⟨by simp [initial, LogSystem.initial],
    by simp [initial, LogSystem.initial]⟩
  subset := by simp [initial]
  fresh := by simp [initial]
  pending := by simp [initial, LogSystem.initial]
  space := by simp [initial, LogSystem.initial, unused, inOperation]

omit [Fintype P] in
theorem size_step {s t : LogSystem P} (hok : LogSystem.StepOk s p action t) : t.size = s.size := by
  cases hok <;> rfl

end Steps

variable [Fintype P]

/-- On the log that `mkfs` lays out, when every operation keeps to its share:
`log.lh.block` is never overrun, and a call of `log_write` panics exactly if
`logSize - 1` different blocks have been logged since the last commit. -/
theorem log_write_panics_iff {trace : List (P × LogAction P)}
    {r : LogRecord P}
    (hexec : exec step (initial P logSize) trace = some r)
    (hshare : StepsMeet step (fun r label => r.withinShare label = true)
      (initial P logSize) trace) :
    r.log.block.length ≤ logSize ∧
    ∀ p blockno, r.log.perform (p, .logWrite blockno) =
        .error (.panic "too big a transaction") ↔
      r.log.pc p = .inOp ∧ logSize - 1 ≤ r.group.card := by
  have hinv : r.Reserved ∧ r.log.size = logSize := by
    refine StepsMeet.invariant
      (P := fun r : LogRecord P => r.Reserved ∧ r.log.size = logSize)
      ?_ ⟨reserved_initial logSize, rfl⟩ hshare hexec
    rintro r ⟨p, action⟩ r' ⟨hreserved, hsize⟩ hshare hstep
    refine ⟨hreserved.step hshare hstep, ?_⟩
    rw [size_step (step_eq_some hstep).1, hsize]
  have hspace := hinv.1.space
  have hlength := hinv.1.recorded.length_eq
  refine ⟨by omega, ?_⟩
  intro p blockno
  have hlimit : ((logSize : ℤ) ≤ r.log.block.length ∨
      r.log.size - 1 ≤ r.log.block.length) ↔ logSize - 1 ≤ r.group.card := by
    rw [hinv.2, hlength]
    omega
  simp only [LogSystem.perform, LogSystem.logWrite, bind_eq_panic,
    await_ne_panic, await_eq_ok, ensure_eq_panic, pure_ne_panic, hlimit]
  simp

def beginSteps {P : Type} (p : P) : List (P × LogAction P) :=
  [(p, .beginOp), (p, .advance)]

def logSteps {P : Type} (p : P) (blocks : List ℕ) : List (P × LogAction P) :=
  blocks.flatMap fun blockno => [(p, .logWrite blockno), (p, .advance)]

def twoOperations : List (Bool × LogAction Bool) :=
  beginSteps false ++ logSteps false [0, 1, 2, 3, 4] ++ beginSteps true ++
    logSteps true [4, 5, 6, 7, 8]

def nineLogged : LogRecord Bool :=
  (exec step (initial Bool logSize) twoOperations).getD (initial Bool logSize)

theorem log_write_panics_iff_nineLogged :
    nineLogged.log.perform (true, .logWrite 9) ≠
      .error (.panic "too big a transaction") := by
  have hexec : exec step (initial Bool logSize) twoOperations = some nineLogged := rfl
  have hshare : checkSteps step withinShare (initial Bool logSize) twoOperations =
      true := by decide +kernel
  have hiff := (log_write_panics_iff hexec (stepsMeet_of_checkSteps hshare)).2
  rw [Ne, hiff true 9]
  decide +kernel

def threeOperations : List (Fin 3 × LogAction (Fin 3)) :=
  beginSteps 0 ++ beginSteps 1 ++ beginSteps 2 ++
    logSteps 0 (List.range' 0 10) ++ logSteps 1 (List.range' 10 10) ++
    logSteps 2 (List.range' 20 9)

def twentyNineLogged : LogRecord (Fin 3) :=
  (exec step (initial (Fin 3) logSize) threeOperations).getD
    (initial (Fin 3) logSize)

theorem log_write_thirtieth_panics :
    exec step (initial (Fin 3) logSize) threeOperations = some twentyNineLogged ∧
      StepsMeet step (fun r label => r.withinShare label = true)
        (initial (Fin 3) logSize) threeOperations ∧
      twentyNineLogged.withinShare (2, .logWrite 29) = true ∧
      twentyNineLogged.log.perform (2, .logWrite 29) =
        .error (.panic "too big a transaction") := by
  have hshare : checkSteps step withinShare (initial (Fin 3) logSize)
      threeOperations = true := by decide +kernel
  refine ⟨rfl, stepsMeet_of_checkSteps hshare, ?_, ?_⟩
  · decide +kernel
  · rfl

end LogRecord

end Xv6Kernel
