import Xv6Kernel.FileCalls

/-!
# Putting the last reference to an unlinked inode

`iput` reads the reference count, decides whether to free the inode, releases
the inode and drops its reference in separate critical sections.  As long as
some reference remains whose `iput` has not read the count yet, nothing is lost:
the last one to read it finds 1 and frees the inode.  If instead every other
reference is held by a process between its check and its decrement, nobody is
left to free it.
-/

namespace Xv6Kernel

open TraceExecution ThreadPrograms Function

def putSystem (P : Type) [DecidableEq P] (ip : ISlot) :
    System P (FileSystem P) FsOp FsOp.Resp Unit where
  run := FsOp.run
  body := fun _ => iput ip
  may := fun _ _ => true

def PastCheck {P : Type} (s : FsPool P) (ip : ISlot) (q : P) : Prop :=
  (s.thread q).head = some (.releasesleep ip .iput) ∨
    (s.thread q).head = some (.decRef ip)

instance {P : Type} (s : FsPool P) (ip : ISlot) : DecidablePred (PastCheck s ip) :=
  fun _ => inferInstanceAs (Decidable (_ ∨ _))

variable {P : Type} [Fintype P] [DecidableEq P]

/-- If the step reads a reference count other than 1, then some other reference
is held by a process that is not yet behind its own check. -/
def LeavesChecker (ip : ISlot) (s : FsPool P) (label : P × Move Unit) : Prop :=
  (s.thread label.1).head = some (.getRef ip) →
    (s.shared.icache ip).ref = 1 ∨ (s.shared.icache ip).ref ≠
      (Finset.univ.filter (PastCheck s ip)).card + 1

instance (ip : ISlot) (s : FsPool P) (label : P × Move Unit) :
    Decidable (LeavesChecker ip s label) :=
  inferInstanceAs (Decidable (_ → _))

/-- The cached inode has no links and is still allocated, and nobody is inside
`iput`. -/
structure Unlinked (s : FsPool P) (ip : ISlot) : Prop where
  idle : ∀ p, s.thread p = .ret ()
  unlocked : (s.shared.icache ip).lock = none
  valid : (s.shared.icache ip).valid = true
  nlink : (s.shared.icache ip).nlink = 0
  ref : 0 < (s.shared.icache ip).ref

inductive Verdict
  | unknown
  | last
  | kept
  | gone
  deriving DecidableEq

structure PutRecord where
  locked : Bool
  verdict : Verdict

open PutRecord

def PutRecord.see (l : PutRecord) (node : Node) : PutRecord :=
  if node.valid ∧ node.nlink = 0 then l else { l with verdict := .gone }

def PutRecord.judge (l : PutRecord) (r : ℤ) : PutRecord :=
  { l with verdict := if r = 1 then .last else .kept }

/-- The order in which `iput` does things. -/
inductive PutAllowed (ip : ISlot) : FsOp → PutRecord → Prop
  | acquire : PutAllowed ip (.acquiresleep ip .iput) ⟨false, .unknown⟩
  | inode : PutAllowed ip (.inode ip) ⟨true, .unknown⟩
  | getRef : PutAllowed ip (.getRef ip) ⟨true, .unknown⟩
  | ifree : PutAllowed ip (.ifree ip) ⟨true, .last⟩
  | release (verdict : Verdict) (hdecided : verdict = .kept ∨ verdict = .gone) :
      PutAllowed ip (.releasesleep ip .iput) ⟨true, verdict⟩
  | decRef (verdict : Verdict) (hdecided : verdict = .kept ∨ verdict = .gone) :
      PutAllowed ip (.decRef ip) ⟨false, verdict⟩

def putDiscipline (ip : ISlot) : Discipline FsOp FsOp.Resp PutRecord where
  pre := PutAllowed ip
  resp := fun _ _ _ => True
  next
    | .acquiresleep _ _, _, _ => ⟨true, .unknown⟩
    | .inode _, node, l => l.see node
    | .getRef _, r, l => l.judge r
    | .ifree _, _, l => { l with verdict := .gone }
    | .releasesleep _ _, _, l => { l with locked := false }
    | .decRef _, _, _ => ⟨false, .unknown⟩
    | _, _, l => l

def putIdle (l : PutRecord) : Prop := l = ⟨false, .unknown⟩

theorem keeps_dropRef (ip : ISlot) (verdict : Verdict)
    (hdecided : verdict = .kept ∨ verdict = .gone) :
    Keeps (putDiscipline ip) (dropRef ip) ⟨true, verdict⟩ fun _ => putIdle := by
  simp only [dropRef, fsOp, keeps_bind, keeps_perform]
  exact ⟨.release verdict hdecided, fun _ _ =>
    ⟨.decRef verdict hdecided, fun _ _ => rfl⟩⟩

theorem keeps_iput (ip : ISlot) {l : PutRecord} (hidle : putIdle l) :
    Keeps (putDiscipline ip) (iput ip) l fun _ => putIdle := by
  subst hidle
  simp only [iput, fsOp, keeps_bind, keeps_perform]
  refine ⟨.acquire, fun _ _ => ⟨.inode, ?_⟩⟩
  intro node _
  by_cases hnode : node.valid ∧ node.nlink = 0
  · simp only [if_pos hnode, keeps_bind, keeps_perform]
    simp only [putDiscipline, see, if_pos hnode]
    refine ⟨.getRef, ?_⟩
    intro r _
    by_cases hr : r = 1
    · simp only [if_pos hr, keeps_bind, keeps_perform, judge]
      exact ⟨.ifree, fun _ _ => keeps_dropRef ip .gone (Or.inr rfl)⟩
    · simp only [if_neg hr, judge]
      exact keeps_dropRef ip .kept (Or.inl rfl)
  · simp only [if_neg hnode]
    simp only [putDiscipline, see, if_neg hnode]
    exact keeps_dropRef ip .gone (Or.inr rfl)

def PutRecord.keeps (l : PutRecord) : ℕ := if l.verdict = .kept then 1 else 0

def keptCount (L : P → PutRecord) : ℕ := ∑ p, (L p).keeps

structure PutInv (ip : ISlot) (s : FileSystem P) (L : P → PutRecord) : Prop where
  lock : ∀ p, (s.icache ip).lock = some p ↔ (L p).locked = true
  live : (s.dinode (s.icache ip).inum).type ≠ .none →
    (s.icache ip).valid = true ∧ (s.icache ip).nlink = 0 ∧
      (keptCount L : ℤ) < (s.icache ip).ref
  gone : ∀ p, (L p).verdict = .gone →
    (s.dinode (s.icache ip).inum).type = .none

omit [DecidableEq P] in
theorem Unlinked.putInv {s : FsPool P} {ip : ISlot} (hs : Unlinked s ip) :
    PutInv ip s.shared fun _ => ⟨false, .unknown⟩ where
  lock := by simp [hs.unlocked]
  live := by simp [hs.valid, hs.nlink, hs.ref, keeps, keptCount]
  gone := by simp

/-! ## One operation -/

section Operation

variable {ip : ISlot} {s : FsPool P} {L : P → PutRecord} {p : P} {t : FileSystem P}

omit [Fintype P] [DecidableEq P] in
theorem pastCheck_iff_kept
    (hkeeps : ∀ q, Keeps (putDiscipline ip) (s.thread q) (L q) fun _ => putIdle)
    (hgone : ∀ q, (L q).verdict ≠ .gone) (q : P) : PastCheck s ip q ↔ (L q).verdict = .kept := by
  have hq := hkeeps q
  have hnot := hgone q
  clear hkeeps hgone
  unfold PastCheck
  cases hthread : s.thread q with
  | ret u =>
    rw [hthread] at hq
    have hrecord : L q = ⟨false, .unknown⟩ := hq
    simp [Prog.head, hrecord]
  | op o next =>
    rw [hthread] at hq
    have hpre : PutAllowed ip o (L q) := hq.1
    clear hq
    generalize L q = l at hpre hnot
    simp only [Prog.head, Option.some.injEq]
    constructor
    · rintro (rfl | rfl)
      · cases hpre with
        | release verdict hdecided => exact hdecided.resolve_right hnot
      · cases hpre with
        | decRef verdict hdecided => exact hdecided.resolve_right hnot
    · intro hkept
      cases hpre with
      | release => exact Or.inl rfl
      | decRef => exact Or.inr rfl
      | _ => contradiction

omit [DecidableEq P] in
theorem card_pastCheck (hkeeps : ∀ q, Keeps (putDiscipline ip) (s.thread q) (L q) fun _ => putIdle)
    (hgone : ∀ q, (L q).verdict ≠ .gone) :
    (Finset.univ.filter (PastCheck s ip)).card = keptCount L := by
  rw [Finset.card_filter]
  apply Finset.sum_congr rfl
  intro q _
  simp only [keeps, pastCheck_iff_kept hkeeps hgone q]

theorem keptCount_update (L : P → PutRecord) (p : P) (l : PutRecord) :
    keptCount (update L p l) + (L p).keeps = keptCount L + l.keeps := by
  have hmove := sum_add_of_move (f := fun q => (L q).keeps)
    (g := fun q => (update L p l q).keeps) p
    (fun q hq => by rw [update_of_ne hq])
  simpa [keptCount] using hmove

theorem PutInv.next {l : PutRecord} (hinv : PutInv ip s.shared L)
    (hself : (t.icache ip).lock = some p ↔ l.locked = true)
    (hothers : ∀ q, q ≠ p →
      ((t.icache ip).lock = some q ↔ (s.shared.icache ip).lock = some q))
    (hnone : (s.shared.dinode (s.shared.icache ip).inum).type = .none →
      (t.dinode (t.icache ip).inum).type = .none)
    (hlive : (t.dinode (t.icache ip).inum).type ≠ .none →
      (t.icache ip).valid = (s.shared.icache ip).valid ∧
      (t.icache ip).nlink = (s.shared.icache ip).nlink ∧ l.verdict ≠ .gone ∧
      (keptCount L : ℤ) + l.keeps < (t.icache ip).ref + (L p).keeps) :
    PutInv ip t (update L p l) := by
  have hcount := keptCount_update L p l
  constructor
  case lock =>
    intro q
    by_cases hq : q = p
    · subst q
      rw [update_self]
      exact hself
    · rw [update_of_ne hq, hothers q hq]
      exact hinv.lock q
  case live =>
    intro htype
    obtain ⟨hvalid, hnlink, _, hless⟩ := hlive htype
    have hbefore := hinv.live fun heq => htype (hnone heq)
    rw [hvalid, hnlink]
    refine ⟨hbefore.1, hbefore.2.1, ?_⟩
    omega
  case gone =>
    intro q hgone
    by_cases hq : q = p
    · subst q
      rw [update_self] at hgone
      by_contra htype
      exact (hlive htype).2.2.1 hgone
    · rw [update_of_ne hq] at hgone
      exact hnone (hinv.gone q hgone)

theorem PutInv.op {o : FsOp} {next : o.Resp → FsCode Unit} {r : o.Resp}
    (hinv : PutInv ip s.shared L)
    (hkeeps : ∀ q, Keeps (putDiscipline ip) (s.thread q) (L q) fun _ => putIdle)
    (hat : s.thread p = .op o next) (hmeet : LeavesChecker ip s (p, .advance))
    (hrun : FsOp.run p o s.shared = .ok (r, t)) :
    PutInv ip t (update L p ((putDiscipline ip).next o r (L p))) := by
  have hpre := hkeeps p
  rw [hat] at hpre
  have hallowed : PutAllowed ip o (L p) := hpre.1
  have hlock := hinv.lock p
  have hlive := hinv.live
  have hgone := hinv.gone p
  generalize hl : L p = l at hallowed
  rw [hl] at hlock hgone
  cases hallowed with
  | acquire =>
    simp only [FsOp.run, bind_eq_ok, await_eq_ok, pure_eq_ok] at hrun
    obtain ⟨_, hfree, hrun⟩ := hrun
    cases hrun
    apply hinv.next
    · simp [putDiscipline]
    · intro q hq
      simp [hfree, Ne.symm hq]
    · simp
    · intro htype
      simpa [hl, putDiscipline, keeps] using (hlive (by simpa using htype)).2.2
  | inode =>
    cases hrun
    apply hinv.next
    · simp only [putDiscipline, see]
      split <;> simpa using hlock
    · simp
    · simp
    · intro htype
      have hnow := hlive htype
      simpa [hl, putDiscipline, see, keeps, hnow.1, hnow.2.1] using hnow.2.2
  | getRef =>
    cases hrun
    apply hinv.next
    · simpa [putDiscipline, judge] using hlock
    · simp
    · simp
    · intro htype
      have hnow := hlive htype
      have hcard := card_pastCheck hkeeps fun q hq => htype (hinv.gone q hq)
      have hchecker := hmeet (by simp [hat, Prog.head])
      rw [hcard] at hchecker
      by_cases hone : (s.shared.icache ip).ref = 1
      · simpa [hl, putDiscipline, judge, keeps, hone] using hnow.2.2
      · have hroom := hchecker.resolve_left hone
        have hmore := hnow.2.2
        simp only [hl, putDiscipline, judge, keeps, hone]
        refine ⟨trivial, trivial, by simp, ?_⟩
        simp only [if_true, if_false, reduceCtorEq]
        omega
  | ifree =>
    cases hrun
    apply hinv.next
    · simpa [putDiscipline, FileSystem.iupdate] using hlock
    · simp
    · simp [FileSystem.iupdate]
    · simp [FileSystem.iupdate]
  | release verdict hdecided =>
    cases hrun
    have howner := hlock.mpr rfl
    apply hinv.next
    · simp [putDiscipline]
    · intro q hq
      simp [howner, Ne.symm hq]
    · simp
    · intro htype
      have hkept : verdict = .kept :=
        hdecided.resolve_right fun heq => htype (by simpa using hgone heq)
      have hnow := (hlive (by simpa using htype)).2.2
      simp only [hl, putDiscipline, keeps, hkept]
      refine ⟨by simp, by simp, by simp, ?_⟩
      simp only [FileSystem.setInode_icache_self, if_true]
      omega
  | decRef verdict hdecided =>
    cases hrun
    apply hinv.next
    · simpa [putDiscipline] using hlock
    · simp
    · simp
    · intro htype
      have hkept : verdict = .kept :=
        hdecided.resolve_right fun heq => htype (by simpa using hgone heq)
      have hnow := (hlive (by simpa using htype)).2.2
      simp only [hl, putDiscipline, keeps, hkept]
      refine ⟨by simp, by simp, by simp, ?_⟩
      simp only [FileSystem.setInode_icache_self, reduceCtorEq, if_false, if_true]
      omega

end Operation

/-- If nobody else gives up the inode between the check of `iput` and its end, an unlinked inode
without references is free on the disk. -/
theorem iput_frees_last_reference {ip : ISlot} {s t : FsPool P} {trace : List (P × Move Unit)}
    (hs : Unlinked s ip) (hmeet : StepsMeet (putSystem P ip).step (LeavesChecker ip) s trace)
    (hexec : exec (putSystem P ip).step s trace = some t) :
    ¬ ((t.shared.icache ip).ref = 0 ∧ (t.shared.icache ip).nlink = 0 ∧
      (t.shared.dinode (t.shared.icache ip).inum).type ≠ .none) := by
  have hdone : Disciplined (putDiscipline ip) (PutInv ip) putIdle t := by
    refine StepsMeet.invariant ?_ ?_ hmeet hexec
    · rintro u ⟨p, move⟩ v hu hchecker hstep
      apply hu.step hstep
      · intro _ _ _ _ hidle
        exact keeps_iput ip hidle
      · rintro L o next r w hinv hkeeps rfl hat hrun
        refine ⟨trivial, _, hinv.op hkeeps hat hchecker hrun, update_self .., ?_⟩
        intro q hqp
        rw [update_of_ne hqp]
        exact hkeeps q
    · refine ⟨_, hs.putInv, ?_⟩
      intro p
      rw [hs.idle p]
      rfl
  obtain ⟨L, hinv, _⟩ := hdone
  rintro ⟨href, _, htype⟩
  have hless := (hinv.live htype).2.2
  omega

def openTwice : FsPool (Fin 2) where
  shared :=
    { dinode := fun _ => ⟨.file, 0, 0, 0, []⟩
      icache := fun _ => ⟨7, 2, none, true, .file, 0, 0, 0⟩
      ftable := fun _ => ⟨0, none, false, false⟩
      cwd := fun _ => none
      ofile := fun _ _ => none }
  thread := fun _ => .ret ()

theorem openTwice_unlinked : Unlinked openTwice 3 :=
  ⟨fun _ => rfl, rfl, rfl, rfl, by decide⟩

def closeTogether : List (Fin 2 × Move Unit) :=
  [(0, .call ()), (1, .call ())] ++ List.replicate 4 (0, .advance) ++
    List.replicate 4 (1, .advance) ++ [(0, .advance), (1, .advance)]

theorem iput_race_leaks :
    Unlinked openTwice 3 ∧
    ∃ t, exec (putSystem (Fin 2) 3).step openTwice closeTogether = some t ∧
      (t.shared.icache 3).ref = 0 ∧ (t.shared.icache 3).nlink = 0 ∧
      (t.shared.dinode (t.shared.icache 3).inum).type ≠ .none := by
  have hrun : (exec (putSystem (Fin 2) 3).step openTwice closeTogether).any
      (fun t => (t.shared.icache 3).ref = 0 ∧ (t.shared.icache 3).nlink = 0 ∧
        (t.shared.dinode (t.shared.icache 3).inum).type ≠ .none) = true := by
    decide +kernel
  obtain ⟨t, hexec, hleak⟩ := exec_of_any hrun
  exact ⟨openTwice_unlinked, t, hexec, by simpa using hleak⟩

def closeInTurn : List (Fin 2 × Move Unit) :=
  (0, .call ()) :: List.replicate 5 (0, .advance) ++
    (1, .call ()) :: List.replicate 6 (1, .advance)

theorem iput_frees_last_reference_closeInTurn :
    ∃ t, exec (putSystem (Fin 2) 3).step openTwice closeInTurn = some t ∧
      (t.shared.icache 3).ref = 0 ∧
      ¬ ((t.shared.icache 3).ref = 0 ∧ (t.shared.icache 3).nlink = 0 ∧
        (t.shared.dinode (t.shared.icache 3).inum).type ≠ .none) := by
  have hmeet : StepsMeet (putSystem (Fin 2) 3).step
      (fun s label => decide (LeavesChecker 3 s label) = true) openTwice
      closeInTurn := stepsMeet_of_checkSteps (by decide +kernel)
  simp only [decide_eq_true_eq] at hmeet
  have hrun : (exec (putSystem (Fin 2) 3).step openTwice closeInTurn).any
      (fun t => (t.shared.icache 3).ref = 0) = true := by decide +kernel
  obtain ⟨t, hexec, href⟩ := exec_of_any hrun
  exact ⟨t, hexec, by simpa using href, iput_frees_last_reference openTwice_unlinked hmeet hexec⟩

end Xv6Kernel
