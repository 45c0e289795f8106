import Xv6Kernel.OpenFiles

/-!
# References that a call holds

The record of a process in a call: the references to files that it holds beside
its descriptors, the descriptors it has looked at, the files it has allocated
and not filled in yet, the ends of pipes it has to create or to close, the page
it has to free, and the child it is making.  A call ends with nothing in hand.
-/

namespace Xv6Kernel

open TraceExecution ThreadPrograms Function

variable {P : Type}

/-- `hand f` is negative while a descriptor refers to `f` and its reference is
not counted yet, or not any more. -/
@[ext] structure FileRecord (P : Type) where
  hand : Fin nfile → ℤ
  seen : Fin nofile → Option (Fin nfile)
  fresh : Finset (Fin nfile)
  ends : List (ℕ × Bool)
  page : Option ℕ
  child : Option (P × ℕ)
  exiting : Option ℕ
  live : Bool

def descriptors (ofile : Fin nofile → Option (Fin nfile)) (f : Fin nfile) : ℤ :=
  ∑ fd, if ofile fd = some f then 1 else 0

namespace FileRecord

def known (l : FileRecord P) (f : Fin nfile) : ℤ := descriptors l.seen f + l.hand f

def addHand (l : FileRecord P) (f : Fin nfile) (k : ℤ) : FileRecord P :=
  { l with hand := Function.update l.hand f (l.hand f + k) }

def look (l : FileRecord P) (fd : Fin nofile) (f : Option (Fin nfile)) : FileRecord P :=
  { l with seen := Function.update l.seen fd f }

/-- Descriptor `fd` is known to be free; `exit` counts them. -/
def passed (l : FileRecord P) (fd : Fin nofile) : FileRecord P :=
  { l with
    exiting := if l.exiting = some fd.val then some (fd.val + 1) else l.exiting }

/-- The end of a pipe that the last reference to a file stood for. -/
def endOf : Option OpenFile → List (ℕ × Bool)
  | some ⟨_, .pipe a, _, writable⟩ => [(a, writable)]
  | _ => []

def pre : FileOp P → FileRecord P → Prop
  | .fdalloc _, l => l.exiting = none
  | .fdclear fd, l => l.seen fd ≠ none
  | .filedup f, l => 1 ≤ l.known f ∧ f ∉ l.fresh
  | .fileclose f, l => 1 ≤ l.known f
  | .setInode f _ _ _, l => f ∈ l.fresh
  | .setPipe f a writable, l => f ∈ l.fresh ∧ (a, writable) ∈ l.ends
  | .pipeclose a writable, l => (a, writable) ∈ l.ends ∧ l.page = none
  | .kfree a, l => l.page = some a
  | .allocproc _, l => l.child = none
  | .freeproc np, l => l.child = some (np, 0)
  | .setParent np, l => l.child = some (np, 0)
  | .setChildFd np fd f, l =>
      1 ≤ l.hand f ∧ f ∉ l.fresh ∧ ∃ i ≤ fd.val, l.child = some (np, i)
  | .setRunnable np, l => ∃ i, l.child = some (np, i)
  | .exitEnd, l => l.exiting = some nofile
  | _, _ => True

def resp : (o : FileOp P) → o.Resp → FileRecord P → Prop
  | .fdalloc _, fd, l => ∀ fd', fd = some fd' → l.seen fd' = none
  | .filealloc, f, l => ∀ f', f = some f' → f' ∉ l.fresh
  | .fileclose f, ff, l => f ∈ l.fresh → endOf ff = []
  | _, _, _ => True

def next : (o : FileOp P) → o.Resp → FileRecord P → FileRecord P
  | .argfd fd, none, l => (l.look fd none).passed fd
  | .argfd fd, some f, l => l.look fd (some f)
  | .fdalloc f, some fd, l => (l.look fd (some f)).addHand f (-1)
  | .fdclear fd, _, l =>
      match l.seen fd with
      | some f => ((l.look fd none).passed fd).addHand f 1
      | none => l
  | .filealloc, some f, l => { l.addHand f 1 with fresh := insert f l.fresh }
  | .filedup f, _, l => l.addHand f 1
  | .fileclose f, ff, l =>
      { l.addHand f (-1) with
        fresh := l.fresh.erase f
        ends := endOf ff ++ l.ends }
  | .setInode f _ _ _, _, l => { l with fresh := l.fresh.erase f }
  | .kalloc _, some a, l => { l with ends := (a, false) :: (a, true) :: l.ends }
  | .setPipe f a writable, _, l =>
      { l with
        fresh := l.fresh.erase f
        ends := l.ends.erase (a, writable) }
  | .pipeclose a writable, last, l =>
      { l with
        ends := l.ends.erase (a, writable)
        page := if last then some a else l.page }
  | .kfree _, _, l => { l with page := none }
  | .allocproc np, _, l => { l with child := some (np, 0) }
  | .freeproc _, _, l => { l with child := none }
  | .setChildFd np fd f, _, l =>
      { l.addHand f (-1) with child := some (np, fd.val + 1) }
  | .setRunnable _, _, l => { l with child := none }
  | .exitBegin, _, l => { l with exiting := some 0 }
  | .exitEnd, _, l => { l with exiting := none, live := false }
  | _, _, l => l

structure Clean (l : FileRecord P) : Prop where
  hand : ∀ f, l.hand f = 0
  fresh : l.fresh = ∅
  ends : l.ends = []
  page : l.page = none

structure Idle (l : FileRecord P) : Prop extends Clean l where
  child : l.child = none
  exiting : l.exiting = none

end FileRecord

open FileRecord in
def fileDiscipline (P : Type) : Discipline (FileOp P) FileOp.Resp (FileRecord P) where
  pre o l := l.live = true ∧ pre o l
  resp := resp
  next := next

section Descriptors

variable (ofile : Fin nofile → Option (Fin nfile)) (fd : Fin nofile)
variable (f : Fin nfile)

theorem descriptors_nonneg : 0 ≤ descriptors ofile f := by
  apply Finset.sum_nonneg
  intro fd _
  split <;> simp

theorem descriptors_update (g : Option (Fin nfile)) :
    descriptors (update ofile fd g) f + (if ofile fd = some f then 1 else 0) =
      descriptors ofile f + if g = some f then 1 else 0 := by
  have hsum := sum_add_of_move (f := fun e => if ofile e = some f then (1 : ℤ) else 0)
    (g := fun e => if update ofile fd g e = some f then (1 : ℤ) else 0) fd
    (by
      intro e he
      simp only [update_of_ne he])
  simpa [descriptors] using hsum

variable {ofile fd f}

theorem one_le_descriptors (hfd : ofile fd = some f) : 1 ≤ descriptors ofile f := by
  have hupdate := descriptors_update ofile fd f none
  have hrest := descriptors_nonneg (update ofile fd none) f
  simp only [hfd, if_true, reduceCtorEq, if_false] at hupdate
  omega

theorem descriptors_mono {ofile' : Fin nofile → Option (Fin nfile)}
    (hsub : ∀ fd, ofile fd = some f → ofile' fd = some f) :
    descriptors ofile f ≤ descriptors ofile' f := by
  apply Finset.sum_le_sum
  intro fd _
  by_cases hfd : ofile fd = some f
  · rw [if_pos hfd, if_pos (hsub fd hfd)]
  · rw [if_neg hfd]
    split <;> simp

end Descriptors

section Records

variable {l : FileRecord P} {f g : Fin nfile} {fd : Fin nofile}

@[simp] theorem addHand_self (k : ℤ) : (l.addHand f k).hand f = l.hand f + k := by
  simp [FileRecord.addHand]

theorem addHand_of_ne {k : ℤ} (hg : g ≠ f) : (l.addHand f k).hand g = l.hand g := by
  simp [FileRecord.addHand, hg]

theorem addHand_addHand (j k : ℤ) : (l.addHand f j).addHand f k = l.addHand f (j + k) := by
  simp [FileRecord.addHand, add_assoc]

theorem addHand_zero : l.addHand f 0 = l := by
  simp [FileRecord.addHand]

theorem hand_le_known : l.hand f ≤ l.known f := by
  have hseen := descriptors_nonneg l.seen f
  unfold FileRecord.known
  omega

theorem one_le_known_of_seen (hfd : l.seen fd = some f) (hhand : 0 ≤ l.hand f) : 1 ≤ l.known f := by
  have hseen := one_le_descriptors hfd
  unfold FileRecord.known
  omega

end Records

/-! ## The code keeps to the discipline -/

section Code

open FileCode FileRecord

variable {l : FileRecord P} {f : Fin nfile}

def FileRecord.closed (l : FileRecord P) (f : Fin nfile) : FileRecord P :=
  { l.addHand f (-1) with fresh := l.fresh.erase f }

theorem keeps_fileOp {o : FileOp P} {Q : o.Resp → FileRecord P → Prop} (hlive : l.live = true)
    (hpre : pre o l) (hQ : ∀ r, resp o r l → Q r (next o r l)) :
    Keeps (fileDiscipline P) (fileOp o) l Q :=
  ⟨⟨hlive, hpre⟩, hQ⟩

theorem keeps_pipeclose {a : ℕ} {writable : Bool} {rest : List (ℕ × Bool)} (hlive : l.live = true)
    (hends : l.ends = (a, writable) :: rest) (hpage : l.page = none) :
    Keeps (fileDiscipline P) (pipeclose a writable) l
      fun _ l' => l' = { l with ends := rest } := by
  unfold pipeclose
  rw [keeps_bind]
  refine keeps_fileOp hlive ⟨by simp [hends], hpage⟩ ?_
  intro last _
  cases last with
  | true =>
    refine keeps_fileOp hlive rfl ?_
    intro _ _
    simp [next, hends, hpage]
  | false => simp [next, hends]

theorem keeps_fileclose_record (hknown : 1 ≤ l.known f) (hlive : l.live = true)
    (hpage : l.page = none) :
    Keeps (fileDiscipline P) (FileCode.fileclose f) l fun _ l' => l' = l.closed f := by
  unfold FileCode.fileclose
  rw [keeps_bind]
  refine keeps_fileOp hlive hknown ?_
  intro ff _
  cases ff with
  | none => rfl
  | some ff =>
    obtain ⟨ref, kind, readable, writable⟩ := ff
    cases kind with
    | none => rfl
    | pipe a =>
      let next : FileRecord P := next (.fileclose f) (some ⟨ref, .pipe a, readable, writable⟩) l
      have hends : next.ends = (a, writable) :: l.ends := rfl
      refine (keeps_pipeclose (l := next) hlive hends hpage).mono ?_
      rintro _ _ rfl
      rfl
    | inode ip => exact keeps_fileOp hlive trivial fun _ _ => rfl

def FileRecord.allocated (l : FileRecord P) (f : Fin nfile) : FileRecord P :=
  { l.addHand f 1 with fresh := insert f l.fresh }

theorem allocated_closed (hf : f ∉ l.fresh) : (l.allocated f).closed f = l := by
  ext1
  · simp [allocated, closed, addHand]
  · rfl
  · simp [allocated, closed, hf]
  all_goals rfl

theorem addHand_closed (hf : f ∉ l.fresh) : (l.addHand f 1).closed f = l := by
  ext1
  · simp [closed, addHand]
  · rfl
  · simp [closed, addHand, hf]
  all_goals rfl

theorem look_look {fd : Fin nofile} (g h : Option (Fin nfile)) :
    (l.look fd g).look fd h = l.look fd h := by
  simp [look]

theorem next_fdclear {fd : Fin nofile} (hfd : l.seen fd = some f) (u : Unit) :
    next (.fdclear fd) u l =
      ((l.look fd none).passed fd).addHand f 1 := by
  simp [next, hfd]

theorem FileRecord.Idle.look (h : l.Idle) (fd : Fin nofile) (g : Option (Fin nfile)) :
    (l.look fd g).Idle := ⟨⟨h.hand, h.fresh, h.ends, h.page⟩, h.child, h.exiting⟩

theorem passed_of_not_exiting (hexiting : l.exiting = none) (fd : Fin nofile) :
    l.passed fd = l := by
  simp [passed, hexiting]
  rw [← hexiting]

section

variable (hlive : l.live = true) (hidle : l.Idle)

include hlive hidle

theorem keeps_argfd {fd : ℤ} {Q : Option (Fin nofile × Fin nfile) → FileRecord P → Prop}
    (hnone : ∀ l' : FileRecord P, l'.Idle → Q none l')
    (hsome : ∀ fd f, Q (some (fd, f)) (l.look fd (some f))) :
    Keeps (fileDiscipline P) (argfd fd) l Q := by
  unfold argfd
  split
  · rw [keeps_bind]
    refine keeps_fileOp hlive trivial ?_
    intro f _
    cases f with
    | none =>
      apply hnone
      change ((l.look _ none).passed _).Idle
      rw [passed_of_not_exiting (l := l.look _ none) hidle.exiting]
      exact hidle.look _ none
    | some f => exact hsome _ f
  · exact hnone l hidle

theorem keeps_sysOpen_record {ip : ISlot} {readable writable : Bool} :
    Keeps (fileDiscipline P) (FileCode.sysOpen ip readable writable) l
      fun _ => FileRecord.Idle := by
  unfold FileCode.sysOpen
  rw [keeps_bind]
  refine keeps_fileOp hlive trivial ?_
  intro file hfile
  cases file with
  | none => exact keeps_fileOp hlive trivial fun _ _ => hidle
  | some f =>
    have hf : f ∉ l.fresh := hfile f rfl
    change Keeps _ _ (l.allocated f) _
    rw [keeps_bind]
    refine keeps_fileOp hlive hidle.exiting ?_
    intro fd _
    cases fd with
    | none =>
      change Keeps _ _ (l.allocated f) _
      have hknown : 1 ≤ (l.allocated f).known f := by
        refine le_trans ?_ hand_le_known
        simp [allocated, hidle.hand]
      rw [keeps_bind]
      refine (keeps_fileclose_record hknown hlive hidle.page).mono ?_
      rintro _ _ rfl
      rw [allocated_closed hf]
      exact keeps_fileOp hlive trivial fun _ _ => hidle
    | some fd =>
      refine keeps_fileOp hlive (Finset.mem_insert_self f l.fresh) ?_
      intro _ _
      have hrecord : next (.setInode f ip readable writable) ()
          (next (.fdalloc f) (some fd) (l.allocated f)) =
          l.look fd (some f) := by
        ext1
        · simp [next, allocated, look, addHand]
        · rfl
        · simp [next, allocated, look, addHand, hf]
        all_goals rfl
      exact hrecord ▸ hidle.look fd (some f)

theorem keeps_sysDup {fd : ℤ} :
    Keeps (fileDiscipline P) (sysDup fd) l fun _ => FileRecord.Idle := by
  unfold sysDup
  rw [keeps_bind]
  apply keeps_argfd hlive hidle
  · intro l' hidle'
    exact hidle'
  · intro fd f
    have hseen : (l.look fd (some f)).seen fd = some f := by
      simp [look]
    change Keeps _ _ _ _
    rw [keeps_bind]
    refine keeps_fileOp hlive hidle.exiting ?_
    intro fd' hfd'
    cases fd' with
    | none => exact hidle.look fd (some f)
    | some fd' =>
      have hne : fd ≠ fd' := by
        rintro rfl
        rw [hfd' fd rfl] at hseen
        cases hseen
      refine keeps_fileOp hlive ⟨?_, ?_⟩ ?_
      · have hfirst := one_le_descriptors hseen
        have hsecond := descriptors_update (l.look fd (some f)).seen fd' f (some f)
        rw [hfd' fd' rfl] at hsecond
        simp only [next, known, addHand, look, update_self, hidle.hand] at hfirst hsecond ⊢
        simp only [reduceCtorEq, if_false, if_true] at hsecond
        omega
      · simp [next, addHand, look, hidle.fresh]
      · intro _ _
        change (addHand (addHand _ f (-1)) f 1).Idle
        rw [addHand_addHand, neg_add_cancel, addHand_zero]
        exact (hidle.look fd (some f)).look fd' (some f)

theorem keeps_sysClose_record {fd : ℤ} :
    Keeps (fileDiscipline P) (FileCode.sysClose fd) l fun _ => FileRecord.Idle := by
  unfold FileCode.sysClose
  rw [keeps_bind]
  apply keeps_argfd hlive hidle
  · intro l' hidle'
    exact hidle'
  · intro fd f
    have hseen : (l.look fd (some f)).seen fd = some f := by
      simp [look]
    change Keeps _ _ _ _
    rw [keeps_bind]
    refine keeps_fileOp hlive (by simp [pre, hseen]) ?_
    intro _ _
    have hrecord : next (.fdclear fd) () (l.look fd (some f)) =
        (l.look fd none).addHand f 1 := by
      rw [next_fdclear hseen, look_look, passed_of_not_exiting]
      exact hidle.exiting
    have hknown : 1 ≤ ((l.look fd none).addHand f 1).known f := by
      refine le_trans ?_ hand_le_known
      simp [look, hidle.hand]
    rw [hrecord]
    refine (keeps_fileclose_record hknown hlive hidle.page).mono ?_
    rintro _ _ rfl
    rw [addHand_closed (by simp [look, hidle.fresh])]
    exact hidle.look fd none

end

/-! ### Pipes -/

section Pipe

variable {g : Fin nfile}

theorem addHand_comm (h : f ≠ g) (j k : ℤ) :
    (l.addHand f j).addHand g k = (l.addHand g k).addHand f j := by
  simp only [addHand, mk.injEq, and_true]
  rw [update_of_ne h.symm, update_of_ne h, update_comm h]

theorem allocated_comm (h : f ≠ g) : (l.allocated f).allocated g = (l.allocated g).allocated f := by
  have hhand := congrArg hand (addHand_comm (l := l) h 1 1)
  ext1
  · exact hhand
  · rfl
  · exact Finset.insert_comm _ _ _
  all_goals rfl

theorem one_le_known_allocated (hhand : l.hand f = 0) : 1 ≤ (l.allocated f).known f := by
  refine le_trans ?_ hand_le_known
  simp [allocated, hhand]

theorem one_le_known_addHand (hhand : l.hand f = 0) : 1 ≤ (l.addHand f 1).known f := by
  refine le_trans ?_ hand_le_known
  simp [hhand]

theorem keeps_pipeBad (hlive : l.live = true) (hidle : l.Idle) (h : f ≠ g)
    (hf : f ∉ l.fresh) (hg : g ∉ l.fresh) :
    Keeps (fileDiscipline P) (pipeBad (some f) (some g))
      ((l.allocated f).allocated g) fun files l' => files = none ∧ l' = l := by
  have hf' : f ∉ (l.allocated g).fresh := by
    simp [allocated, h, hf]
  have hhand : (l.allocated g).hand f = 0 := by
    simp [allocated, addHand, h, hidle.hand]
  rw [allocated_comm h]
  unfold pipeBad
  rw [keeps_bind]
  refine (keeps_fileclose_record (one_le_known_allocated hhand) hlive hidle.page).mono ?_
  rintro _ _ rfl
  rw [allocated_closed hf', keeps_bind]
  refine (keeps_fileclose_record (one_le_known_allocated (hidle.hand g)) hlive hidle.page).mono ?_
  rintro _ _ rfl
  rw [allocated_closed hg]
  exact ⟨rfl, rfl⟩

theorem keeps_pipealloc {memory : Bool} (hlive : l.live = true) (hidle : l.Idle) :
    Keeps (fileDiscipline P) (pipealloc memory) l fun files l' =>
      (files = none ∧ l' = l) ∨
      ∃ f g, files = some (f, g) ∧ f ≠ g ∧ l' = (l.addHand f 1).addHand g 1 := by
  unfold pipealloc
  rw [keeps_bind]
  refine keeps_fileOp hlive trivial ?_
  intro file hfile
  cases file with
  | none => exact Or.inl ⟨rfl, rfl⟩
  | some f =>
    have hf : f ∉ l.fresh := hfile f rfl
    change Keeps _ _ (l.allocated f) _
    rw [keeps_bind]
    refine keeps_fileOp hlive trivial ?_
    intro file' hfile'
    cases file' with
    | none =>
      change Keeps _ (pipeBad (some f) none) (l.allocated f) _
      unfold pipeBad
      rw [keeps_bind]
      refine (keeps_fileclose_record (one_le_known_allocated (hidle.hand f)) hlive
        hidle.page).mono ?_
      rintro _ _ rfl
      rw [allocated_closed hf]
      exact Or.inl ⟨rfl, rfl⟩
    | some g =>
      have hg : g ∉ insert f l.fresh := hfile' g rfl
      rw [Finset.mem_insert, not_or] at hg
      have hne : f ≠ g := Ne.symm hg.1
      change Keeps _ _ ((l.allocated f).allocated g) _
      rw [keeps_bind]
      refine keeps_fileOp hlive trivial ?_
      intro page _
      cases page with
      | none =>
        refine (keeps_pipeBad hlive hidle hne hf hg.2).mono ?_
        intro files l' h
        exact Or.inl h
      | some a =>
        refine keeps_bind.mpr (keeps_fileOp hlive ⟨?_, ?_⟩ ?_)
        · simp [next, allocated]
        · simp [next]
        · intro _ _
          refine keeps_bind.mpr (keeps_fileOp hlive ⟨?_, ?_⟩ ?_)
          · simp [next, allocated, hg.1]
          · simp [next]
          · intro _ _
            refine Or.inr ⟨f, g, rfl, hne, ?_⟩
            ext1
            · rfl
            · rfl
            · change ((insert g (insert f l.fresh)).erase f).erase g = l.fresh
              rw [Finset.erase_right_comm, Finset.erase_insert
                (by simp [hg.1, hg.2]), Finset.erase_insert hf]
            · simp [next, allocated, addHand]
            all_goals rfl

theorem keeps_close_both {Q : Unit → FileRecord P → Prop} (h : f ≠ g) (hhand : ∀ e, l.hand e = 0)
    (hlive : l.live = true) (hpage : l.page = none) (hfresh : l.fresh = ∅) (hQ : Q () l) :
    Keeps (fileDiscipline P) (do FileCode.fileclose f; FileCode.fileclose g)
      ((l.addHand f 1).addHand g 1) Q := by
  have hhand' : (l.addHand g 1).hand f = 0 := by
    rw [addHand_of_ne h, hhand]
  rw [addHand_comm h, keeps_bind]
  refine (keeps_fileclose_record (one_le_known_addHand hhand') hlive hpage).mono ?_
  rintro _ _ rfl
  rw [addHand_closed (by simp [addHand, hfresh])]
  refine (keeps_fileclose_record (one_le_known_addHand (hhand g)) hlive hpage).mono ?_
  rintro _ _ rfl
  rw [addHand_closed (by simp [hfresh])]
  exact hQ

theorem keeps_sysPipe {memory : Bool} (hlive : l.live = true) (hidle : l.Idle) :
    Keeps (fileDiscipline P) (sysPipe memory) l fun _ => FileRecord.Idle := by
  unfold sysPipe
  refine (keeps_pipealloc hlive hidle).seq ?_
  rintro files l' (⟨rfl, rfl⟩ | ⟨f, g, rfl, hne, rfl⟩)
  · exact hidle
  · rw [keeps_bind]
    refine keeps_fileOp hlive hidle.exiting ?_
    intro fd0 _
    cases fd0 with
    | none =>
      exact keeps_close_both hne hidle.hand hlive hidle.page hidle.fresh hidle
    | some fd0 =>
      have hrecord : next (.fdalloc f) (some fd0)
          ((l.addHand f 1).addHand g 1) =
          (l.look fd0 (some f)).addHand g 1 := by
        have hfirst : next (.fdalloc f) (some fd0)
            ((l.addHand f 1).addHand g 1) =
            (((l.look fd0 (some f)).addHand f 1).addHand g 1).addHand f (-1) := rfl
        rw [hfirst, addHand_comm hne, addHand_addHand, add_neg_cancel, addHand_zero]
      change Keeps _ _ (next _ _ _) _
      rw [hrecord, keeps_bind]
      refine keeps_fileOp hlive hidle.exiting ?_
      intro fd1 _
      cases fd1 with
      | some fd1 =>
        change (addHand (addHand ((l.look fd0 (some f)).look fd1 (some g)) g 1) g (-1)).Idle
        rw [addHand_addHand, add_neg_cancel, addHand_zero]
        exact (hidle.look fd0 (some f)).look fd1 (some g)
      | none =>
        have hseen : ((l.look fd0 (some f)).addHand g 1).seen fd0 = some f := by
          simp [addHand, look]
        change Keeps _ _ ((l.look fd0 (some f)).addHand g 1) _
        rw [keeps_bind]
        refine keeps_fileOp hlive (by simp [pre, hseen]) ?_
        intro u _
        have hclear : next (.fdclear fd0) u
            ((l.look fd0 (some f)).addHand g 1) =
            ((l.look fd0 none).addHand f 1).addHand g 1 := by
          have hpassed := passed_of_not_exiting
            (l := ((l.look fd0 (some f)).addHand g 1).look fd0 none)
            hidle.exiting fd0
          rw [next_fdclear hseen, hpassed, addHand_comm hne]
          simp [addHand, look]
        rw [hclear]
        exact keeps_close_both hne hidle.hand hlive hidle.page hidle.fresh (hidle.look fd0 none)

end Pipe

/-! ### Processes -/

theorem next_copy {np : P} {fd : Fin nofile} (f : Fin nfile) (u v : Unit) :
    next (.setChildFd np fd f) u (next (.filedup f) v l) =
      { l with child := some (np, fd.val + 1) } := by
  change { (l.addHand f 1).addHand f (-1) with
    child := some (np, fd.val + 1) } = _
  rw [addHand_addHand, add_neg_cancel, addHand_zero]

theorem keeps_forkFiles {np : P} {rest : List (Fin nofile)} {j : ℕ} (hlive : l.live = true)
    (hclean : l.Clean) (hexiting : l.exiting = none) (hchild : l.child = some (np, j))
    (hsorted : rest.Pairwise (· < ·)) (hj : ∀ fd ∈ rest, j ≤ fd.val) :
    Keeps (fileDiscipline P) (forkFiles np rest) l fun _ l' => l'.live = true ∧
      l'.Clean ∧ l'.exiting = none ∧ ∃ i, l'.child = some (np, i) := by
  induction rest generalizing l j with
  | nil => exact ⟨hlive, hclean, hexiting, j, hchild⟩
  | cons fd rest ih =>
    obtain ⟨hlt, hrest⟩ := List.pairwise_cons.mp hsorted
    unfold forkFiles
    rw [keeps_bind]
    refine keeps_fileOp hlive trivial ?_
    intro file _
    cases file with
    | none =>
      change Keeps _ _ ((l.look fd none).passed fd) _
      rw [passed_of_not_exiting (l := l.look fd none) hexiting]
      refine ih hlive ⟨hclean.hand, hclean.fresh, hclean.ends, hclean.page⟩ hexiting hchild hrest ?_
      intro fd' hfd'
      exact hj fd' (List.mem_cons_of_mem _ hfd')
    | some f =>
      have hlook : (l.look fd (some f)).Clean :=
        ⟨hclean.hand, hclean.fresh, hclean.ends, hclean.page⟩
      have hseen : (l.look fd (some f)).seen fd = some f := by
        simp [look]
      change Keeps _ _ (l.look fd (some f)) _
      refine keeps_bind.mpr (keeps_fileOp hlive ⟨?_, ?_⟩ ?_)
      · exact one_le_known_of_seen hseen (hlook.hand f).ge
      · simp [hlook.fresh]
      · intro u _
        refine keeps_bind.mpr (keeps_fileOp hlive ⟨?_, ?_, ?_⟩ ?_)
        · simp [next, hlook.hand]
        · simp [next, addHand, hlook.fresh]
        · exact ⟨j, hj fd (by simp), hchild⟩
        · intro v _
          rw [next_copy]
          refine ih (j := fd.val + 1) hlive ⟨hclean.hand, hclean.fresh,
            hclean.ends, hclean.page⟩ hexiting rfl hrest ?_
          intro fd' hfd'
          exact hlt fd' hfd'

theorem keeps_fork {np : Option P} {memory : Bool} (hlive : l.live = true) (hidle : l.Idle) :
    Keeps (fileDiscipline P) (fork np memory) l fun _ => FileRecord.Idle := by
  cases np with
  | none => exact hidle
  | some np =>
    unfold fork
    refine keeps_bind.mpr (keeps_fileOp hlive hidle.child ?_)
    intro _ _
    cases memory with
    | false =>
      refine keeps_fileOp hlive rfl ?_
      intro _ _
      exact ⟨⟨hidle.hand, hidle.fresh, hidle.ends, hidle.page⟩, rfl, hidle.exiting⟩
    | true =>
      refine keeps_bind.mpr (keeps_fileOp hlive rfl ?_)
      intro _ _
      have hloop := keeps_forkFiles
        (l := { l with child := some (np, 0) }) hlive
        ⟨hidle.hand, hidle.fresh, hidle.ends, hidle.page⟩ hidle.exiting rfl
        (List.pairwise_lt_finRange nofile) (fun _ _ => Nat.zero_le _)
      refine Keeps.seq hloop ?_
      rintro _ l' ⟨hlive', hclean, hexiting, i, hchild⟩
      refine keeps_fileOp hlive' ⟨i, hchild⟩ ?_
      intro _ _
      exact ⟨⟨hclean.hand, hclean.fresh, hclean.ends, hclean.page⟩, rfl, hexiting⟩

theorem keeps_exitFiles {i : ℕ} (hi : i ≤ nofile) (hlive : l.live = true)
    (hclean : l.Clean) (hchild : l.child = none) (hexiting : l.exiting = some i) :
    Keeps (fileDiscipline P) (exitFiles ((List.finRange nofile).drop i)) l
      fun _ l' => l'.live = true ∧ l'.Clean ∧ l'.child = none ∧
        l'.exiting = some nofile := by
  induction hn : nofile - i generalizing l i with
  | zero =>
    obtain rfl : i = nofile := by omega
    rw [List.drop_eq_nil_of_le (by simp)]
    exact ⟨hlive, hclean, hchild, hexiting⟩
  | succ n ih =>
    have hlt : i < nofile := by omega
    have hpassed : ∀ l' : FileRecord P, l'.exiting = some i →
        (l'.passed ⟨i, hlt⟩).exiting = some (i + 1) := by
      intro l' hl'
      simp [passed, hl']
    rw [List.drop_eq_getElem_cons (by simpa using hlt)]
    simp only [List.getElem_finRange, Fin.cast_mk]
    unfold exitFiles
    rw [keeps_bind]
    refine keeps_fileOp hlive trivial ?_
    intro file _
    cases file with
    | none =>
      refine ih hlt hlive ?_ hchild (hpassed _ hexiting) (by omega)
      exact ⟨hclean.hand, hclean.fresh, hclean.ends, hclean.page⟩
    | some f =>
      have hseen : (l.look ⟨i, hlt⟩ (some f)).seen ⟨i, hlt⟩ = some f := by
        simp [look]
      have hknown := one_le_known_of_seen hseen (hclean.hand f).ge
      change Keeps _ _ (l.look ⟨i, hlt⟩ (some f)) _
      rw [keeps_bind]
      refine (keeps_fileclose_record hknown hlive hclean.page).mono ?_
      rintro _ _ rfl
      refine keeps_bind.mpr (keeps_fileOp hlive ?_ ?_)
      · change (l.look ⟨i, hlt⟩ (some f)).seen ⟨i, hlt⟩ ≠ none
        simp [hseen]
      · intro u _
        have hseen' : ((l.look ⟨i, hlt⟩ (some f)).closed f).seen ⟨i, hlt⟩ = some f := hseen
        rw [next_fdclear hseen']
        refine ih hlt hlive ⟨?_, ?_, hclean.ends, hclean.page⟩ hchild
          (hpassed _ hexiting) (by omega)
        · intro e
          change (addHand (addHand l f (-1)) f 1).hand e = 0
          rw [addHand_addHand, neg_add_cancel, addHand_zero, hclean.hand]
        · change l.fresh.erase f = ∅
          rw [hclean.fresh, Finset.erase_empty]

theorem keeps_exit (hlive : l.live = true) (hidle : l.Idle) :
    Keeps (fileDiscipline P) exit l fun _ => FileRecord.Idle := by
  unfold exit
  refine keeps_bind.mpr (keeps_fileOp hlive trivial ?_)
  intro _ _
  have hloop := keeps_exitFiles (l := { l with exiting := some 0 }) (Nat.zero_le _)
    hlive ⟨hidle.hand, hidle.fresh, hidle.ends, hidle.page⟩ hidle.child rfl
  refine Keeps.seq hloop ?_
  rintro _ l' ⟨hlive', hclean, hchild, hexiting⟩
  refine keeps_bind.mpr (keeps_fileOp hlive' trivial ?_)
  intro _ _
  refine keeps_fileOp hlive' hexiting ?_
  intro _ _
  exact ⟨⟨hclean.hand, hclean.fresh, hclean.ends, hclean.page⟩, hchild, rfl⟩

theorem keeps_fileCall (c : FileCall P) (hlive : l.live = true) (hidle : l.Idle) :
    Keeps (fileDiscipline P) c.body l fun _ => FileRecord.Idle := by
  cases c with
  | sysOpen ip readable writable =>
    cases ip with
    | none => exact hidle
    | some ip => exact keeps_sysOpen_record hlive hidle
  | dup fd => exact keeps_sysDup hlive hidle
  | close fd => exact keeps_sysClose_record hlive hidle
  | pipe memory => exact keeps_sysPipe hlive hidle
  | fork np memory => exact keeps_fork hlive hidle
  | exit => exact keeps_exit hlive hidle
  | wait child =>
    cases child with
    | none => exact hidle
    | some child => exact keeps_fileOp hlive trivial fun _ _ => hidle

theorem idle_of_not_live {x : FileCode P Unit}
    (hx : Keeps (fileDiscipline P) x l fun _ => FileRecord.Idle)
    (hlive : l.live = false) : l.Idle := by
  cases x with
  | ret _ => exact hx
  | op o next =>
    have hpre := hx.1.1
    rw [hlive] at hpre
    cases hpre

theorem keeps_awake {x : FileCode P Unit}
    (hx : Keeps (fileDiscipline P) x l fun _ => FileRecord.Idle) (hlive : l.live = false) :
    Keeps (fileDiscipline P) x { l with live := true } fun _ => FileRecord.Idle := by
  cases x with
  | ret _ =>
    have hidle : l.Idle := hx
    exact ⟨⟨hidle.hand, hidle.fresh, hidle.ends, hidle.page⟩, hidle.child, hidle.exiting⟩
  | op o next =>
    have hpre := hx.1.1
    rw [hlive] at hpre
    cases hpre

end Code

end Xv6Kernel
