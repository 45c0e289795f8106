import Xv6Kernel.OpenFileSteps

/-!
# Open files in every run

From the first process without open files on, every interleaving of the calls
keeps the counts.  Between calls nothing is in hand, so the reference count of a
file is the number of descriptors that refer to it; and the page of a pipe is
freed when no descriptor refers to either end any more, and only once.
-/

namespace Xv6Kernel

open TraceExecution ThreadPrograms Function Finset

variable {P : Type}

def OpenFiles.RefersTo (s : OpenFiles P) (a : ℕ) : Prop :=
  ∃ p fd f, s.ofile p fd = some f ∧ (s.ftable f).kind = .pipe a

def OpenFiles.references [Fintype P] (s : OpenFiles P) (f : Fin nfile) : Finset (P × Fin nofile) :=
  Finset.univ.filter fun x => s.ofile x.1 x.2 = some f

section Run

variable [Fintype P] [DecidableEq P] {s t : FilesPool P}

def bootFileRecord (initproc p : P) : FileRecord P where
  hand := fun _ => 0
  seen := fun _ => none
  fresh := ∅
  ends := []
  page := none
  child := none
  exiting := none
  live := decide (p = initproc)

theorem filesOk_boot (initproc : P) :
    FilesOk (filesBoot initproc).shared (bootFileRecord initproc) := by
  have hnone : ∀ f, descriptors (fun _ => none) f = 0 := by
    intro f
    simp [descriptors]
  refine ⟨⟨?_, ?_⟩, ⟨?_, ?_⟩, ⟨?_, ?_, ?_, ?_⟩, ⟨?_, ?_, ?_⟩, ⟨?_, ?_⟩⟩
  · intro f
    simp [filesBoot, bootFileRecord, hnone]
  · intro q f
    simp [filesBoot, bootFileRecord, hnone]
  · intro q fd f hseen
    cases hseen
  · intro q i hexiting
    cases hexiting
  · intro q _ fd
    rfl
  · intro q
    by_cases hq : q = initproc <;> simp [filesBoot, bootFileRecord, hq]
  · intro q np i hchild
    cases hchild
  · intro q r np i j hchild
    cases hchild
  · intro f hkind
    exact absurd rfl hkind
  · intro q f hf
    simp [bootFileRecord] at hf
  · intro f href
    simp [filesBoot] at href
  · intro a b
    simp [filesBoot, bootFileRecord, OpenFile.isEnd, PipeEnds.isOpen]
  · intro a
    simp [filesBoot, bootFileRecord, PipeEnds.inUse]

theorem filesDisciplined_boot (initproc : P) :
    Disciplined (fileDiscipline P) FilesOk FileRecord.Idle (filesBoot initproc) := by
  refine ⟨bootFileRecord initproc, filesOk_boot initproc, ?_⟩
  intro p
  exact ⟨⟨fun _ => rfl, rfl, rfl, rfl⟩, rfl, rfl⟩

theorem filesDisciplined_step {label : P × Move (FileCall P)}
    (hs : Disciplined (fileDiscipline P) FilesOk FileRecord.Idle s)
    (hstep : (filesSystem P).step s label = some t) :
    Disciplined (fileDiscipline P) FilesOk FileRecord.Idle t := by
  obtain ⟨p, move⟩ := label
  apply hs.step hstep
  · intro L c hinv hmay hidle
    have hlife : s.shared.life p = .live := of_decide_eq_true hmay
    exact keeps_fileCall c ((hinv.slots.live_iff p).mpr hlife) hidle
  · intro L o next r u hinv hkeeps _ hat hrun
    have hp := hkeeps p
    rw [hat] at hp
    have hidle : ∀ q, (L q).live = false → (L q).Idle := by
      intro q
      exact idle_of_not_live (hkeeps q)
    by_cases hchild : ∃ np, o = .setRunnable np
    · obtain ⟨np, rfl⟩ := hchild
      obtain ⟨⟨hlive, i, hi⟩, -⟩ := hp
      have hnp := hinv.embryo_not_live hi
      have hne : p ≠ np := by
        rintro rfl
        rw [hnp] at hlive
        cases hlive
      cases hrun
      refine ⟨trivial, _, hinv.setRunnable hlive hi (hidle np hnp), ?_, ?_⟩
      · rw [update_of_ne hne, update_self]
        rfl
      · intro q hq
        by_cases hqnp : q = np
        · subst q
          rw [update_self]
          exact keeps_awake (hkeeps np) hnp
        · rw [update_of_ne hqnp, update_of_ne hq]
          exact hkeeps q
    · obtain ⟨hresp, hinv'⟩ := hinv.op hp.1 hidle hrun (not_exists.mp hchild)
      refine ⟨hresp, _, hinv', update_self .., ?_⟩
      intro q hq
      rw [update_of_ne hq]
      exact hkeeps q

theorem filesDisciplined_of_reachable {initproc : P}
    (hs : Reachable (filesSystem P).step (· = filesBoot initproc) s) :
    Disciplined (fileDiscipline P) FilesOk FileRecord.Idle s := by
  refine hs.invariant ?_ ?_
  · rintro _ rfl
    exact filesDisciplined_boot initproc
  · intro u label v hu hstep
    exact filesDisciplined_step hu hstep

end Run

section Counts

variable [Fintype P] {s : OpenFiles P} {L : P → FileRecord P}

theorem card_references (s : OpenFiles P) (f : Fin nfile) :
    ((s.references f).card : ℤ) = ∑ p, descriptors (s.ofile p) f := by
  simp only [OpenFiles.references, card_filter, descriptors]
  push_cast
  rw [Fintype.sum_prod_type]

section

variable (h : FilesOk s L)

include h

theorem FilesOk.not_freed {f : Fin nfile} {a : ℕ}
    (hkind : (s.ftable f).kind = .pipe a) : (s.pipe a).inUse = 1 ∧ a ∉ s.freed := by
  have hend : (s.ftable f).isEnd a (s.ftable f).writable = 1 := by
    simp [OpenFile.isEnd, hkind]
  have hle := single_le_sum
    (f := fun g => (s.ftable g).isEnd a (s.ftable f).writable)
    (fun g _ => Nat.zero_le _) (mem_univ f)
  have hends := h.pipes.ends_eq a (s.ftable f).writable
  have hopen := (s.pipe a).isOpen_le_inUse (s.ftable f).writable
  have hone := (s.pipe a).inUse_le_one
  have hpages := h.pipes.pages_eq a
  have hlt : (if a < s.pipes then 1 else 0) ≤ 1 := by
    split <;> simp
  simp only [hend] at hle
  refine ⟨by omega, ?_⟩
  rw [← List.count_eq_zero]
  omega

theorem FilesOk.freed_nodup : s.freed.Nodup := by
  rw [List.nodup_iff_count_le_one]
  intro a
  have hpages := h.pipes.pages_eq a
  have hlt : (if a < s.pipes then 1 else 0) ≤ 1 := by
    split <;> simp
  omega

theorem FilesOk.not_refersTo {a : ℕ} (ha : a ∈ s.freed) : ¬ s.RefersTo a := by
  rintro ⟨p, fd, f, -, hkind⟩
  exact (h.not_freed hkind).2 ha

theorem FilesOk.ref_eq (hidle : ∀ p, (L p).Idle) (f : Fin nfile) :
    (s.ftable f).ref = (s.references f).card := by
  rw [card_references, h.refs.total f]
  apply sum_congr rfl
  intro p _
  rw [(hidle p).hand f, add_zero]

theorem FilesOk.ref_eq_zero_iff (hidle : ∀ p, (L p).Idle)
    (f : Fin nfile) : (s.ftable f).ref = 0 ↔ (s.ftable f).kind = .none := by
  constructor
  · intro href
    by_contra hkind
    have hused := h.kinds.used f hkind
    omega
  · intro hkind
    have hnonneg : 0 ≤ (s.ftable f).ref := by
      rw [h.ref_eq hidle f]
      exact Int.natCast_nonneg _
    by_contra hne
    obtain ⟨p, hp⟩ := h.kinds.filled f (by omega) hkind
    rw [(hidle p).fresh] at hp
    simp at hp

theorem FilesOk.exists_descriptor (hidle : ∀ p, (L p).Idle) {f : Fin nfile}
    (hkind : (s.ftable f).kind ≠ .none) : ∃ p fd, s.ofile p fd = some f := by
  have hused := h.kinds.used f hkind
  rw [h.ref_eq hidle f] at hused
  have hpos : 0 < (s.references f).card := by omega
  obtain ⟨⟨p, fd⟩, hmem⟩ := card_pos.mp hpos
  exact ⟨p, fd, (mem_filter.mp hmem).2⟩

theorem FilesOk.mem_freed_iff (hidle : ∀ p, (L p).Idle) {a : ℕ}
    (ha : a < s.pipes) : a ∈ s.freed ↔ ¬ s.RefersTo a := by
  refine ⟨h.not_refersTo, ?_⟩
  intro hrefers
  have hkind : ∀ f, (s.ftable f).kind ≠ .pipe a := by
    intro f hf
    obtain ⟨p, fd, hfd⟩ := h.exists_descriptor hidle (f := f) (by simp [hf])
    exact hrefers ⟨p, fd, f, hfd, hf⟩
  have hclosed : ∀ b, (s.pipe a).isOpen b = 0 := by
    intro b
    rw [← h.pipes.ends_eq a b]
    simp [OpenFile.isEnd, hkind, (hidle _).ends]
  have huse : (s.pipe a).inUse = 0 := by
    have hread := hclosed false
    have hwrite := hclosed true
    simp only [PipeEnds.isOpen, Bool.false_eq_true, if_false, if_true,
      ite_eq_right_iff, one_ne_zero, imp_false, Bool.not_eq_true] at hread hwrite
    simp [PipeEnds.inUse, hread, hwrite]
  have hpages := h.pipes.pages_eq a
  simp only [huse, (hidle _).page, reduceCtorEq, if_false, sum_const_zero, if_pos ha] at hpages
  exact List.count_pos_iff.mp (by omega)

end

end Counts

section Steps

variable [DecidableEq P]

theorem FileOp.run_freed {p : P} {o : FileOp P} {r : o.Resp} {s u : OpenFiles P}
    (hrun : o.run p s = .ok (r, u)) :
    u.freed = s.freed ∨ ∃ a, u = { s with freed := s.freed ++ [a] } := by
  cases o with
  | kfree a =>
    cases hrun
    exact Or.inr ⟨a, rfl⟩
  | fdalloc | filealloc | kalloc =>
    simp only [FileOp.run] at hrun
    split at hrun <;> (cases hrun; exact Or.inl rfl)
  | fileclose f =>
    simp only [FileOp.run, bind_eq_ok] at hrun
    obtain ⟨-, -, hrun⟩ := hrun
    split at hrun <;> (cases hrun; exact Or.inl rfl)
  | filedup _ | allocproc _ | exitBegin | reap _ =>
    simp only [FileOp.run, bind_eq_ok, pure_eq_ok] at hrun
    obtain ⟨-, -, hrun⟩ := hrun
    cases hrun
    exact Or.inl rfl
  | argfd _ | fdclear _ | setInode _ _ _ _ | setPipe _ _ _ | pipeclose _ _ | iput
  | freeproc _ | setParent _ | setChildFd _ _ _ | setRunnable _ | exitEnd =>
    cases hrun
    exact Or.inl rfl

theorem filesStep_freed {s t : FilesPool P} {label : P × Move (FileCall P)}
    (hstep : (filesSystem P).step s label = some t) :
    t.shared.freed = s.shared.freed ∨
      ∃ a, t.shared = { s.shared with freed := s.shared.freed ++ [a] } := by
  obtain ⟨p, move⟩ := label
  cases System.step_ok hstep with
  | call c u hidle hmay => exact Or.inl rfl
  | advance o next r u hat hrun => exact FileOp.run_freed hrun

end Steps

section Main

variable [Fintype P] [DecidableEq P]

/-- Between calls `ref` counts the descriptors, and a pipe is freed once, after the last reference
to it is gone and not before. -/
theorem file_references_exact (initproc : P) {s : FilesPool P}
    (hs : Reachable (filesSystem P).step (· = filesBoot initproc) s) :
    ((∀ p, (s.thread p).head = none) →
      (∀ f, (s.shared.ftable f).ref = (s.shared.references f).card ∧
        ((s.shared.ftable f).ref = 0 ↔ (s.shared.ftable f).kind = .none)) ∧
      ∀ a < s.shared.pipes, a ∈ s.shared.freed ↔ ¬ s.shared.RefersTo a) ∧
    s.shared.freed.Nodup ∧ (∀ a ∈ s.shared.freed, ¬ s.shared.RefersTo a) ∧
    ∀ label t, (filesSystem P).step s label = some t →
      t.shared.freed = s.shared.freed ∨
      ∃ a, t.shared.freed = s.shared.freed ++ [a] ∧ a ∉ s.shared.freed ∧
        ¬ s.shared.RefersTo a := by
  obtain ⟨L, hinv, hkeeps⟩ := filesDisciplined_of_reachable hs
  refine ⟨?_, hinv.freed_nodup, fun a ha => hinv.not_refersTo ha, ?_⟩
  · intro hquiet
    have hidle : ∀ p, (L p).Idle := by
      intro p
      have hp := hkeeps p
      cases hthread : s.thread p with
      | ret _ =>
          rw [hthread] at hp
          exact hp
      | op o next =>
          have hhead := hquiet p
          rw [hthread] at hhead
          cases hhead
    refine ⟨?_, ?_⟩
    · intro f
      exact ⟨hinv.ref_eq hidle f, hinv.ref_eq_zero_iff hidle f⟩
    · intro a ha
      exact hinv.mem_freed_iff hidle ha
  · intro label t hstep
    rcases filesStep_freed hstep with hsame | ⟨a, ht⟩
    · exact Or.inl hsame
    · obtain ⟨L', hinv', -⟩ := filesDisciplined_of_reachable (hs.next hstep)
      have hnodup := hinv'.freed_nodup
      have hrefers := hinv'.not_refersTo (a := a) (by simp [ht])
      rw [ht] at hnodup hrefers
      refine Or.inr ⟨a, by rw [ht], ?_, hrefers⟩
      intro ha
      exact (List.nodup_append.mp hnodup).2.2 a ha a (by simp) rfl

end Main

def fileCallRun (p : Bool) (c : FileCall Bool) (n : ℕ) : List (Bool × Move (FileCall Bool)) :=
  (p, .call c) :: List.replicate n (p, .advance)

/-- A pipe that fails for lack of memory, a pipe, and a child that has both ends
as well. -/
def sharedPipeRun : List (Bool × Move (FileCall Bool)) :=
  fileCallRun false (.pipe false) 5 ++ fileCallRun false (.pipe true) 7 ++
    fileCallRun false (.fork (some true) true) 23

/-- The child exits, the parent waits for it and closes both ends. -/
def closedPipeRun : List (Bool × Move (FileCall Bool)) :=
  fileCallRun true .exit 23 ++ fileCallRun false (.wait (some true)) 1 ++
    fileCallRun false (.close 0) 4 ++ fileCallRun false (.close 1) 5

def quietTest (s : FilesPool Bool) (ref : ℤ) (freed : List ℕ) : Bool :=
  decide ((s.thread false).head.isNone ∧ (s.thread true).head.isNone ∧
    (s.shared.ftable 0).ref = ref ∧ (s.shared.ftable 1).ref = ref ∧
    s.shared.freed = freed ∧ s.shared.pipes = 1)

theorem file_references_exact_pipe :
    ∃ s t, exec (filesSystem Bool).step (filesBoot false) sharedPipeRun = some s ∧
      exec (filesSystem Bool).step s closedPipeRun = some t ∧
      (s.shared.references 0).card = 2 ∧ (s.shared.references 1).card = 2 ∧
      s.shared.RefersTo 0 ∧ (t.shared.references 0).card = 0 ∧
      (t.shared.references 1).card = 0 ∧ t.shared.freed = [0] := by
  have hrun : ∃ s, exec (filesSystem Bool).step (filesBoot false) sharedPipeRun =
      some s ∧ (quietTest s 2 [] && (exec (filesSystem Bool).step s closedPipeRun).any
        fun t => quietTest t 0 [0]) = true :=
    exec_of_any (by decide +kernel)
  obtain ⟨s, hs, htest⟩ := hrun
  rw [Bool.and_eq_true] at htest
  obtain ⟨hquiet, hclosed⟩ := htest
  obtain ⟨t, ht, hquiet'⟩ := exec_of_any hclosed
  simp only [quietTest, decide_eq_true_eq, Option.isNone_iff_eq_none] at hquiet hquiet'
  obtain ⟨hf, ht', href0, href1, hfreed, hpipes⟩ := hquiet
  obtain ⟨hf', ht'', href0', href1', hfreed', -⟩ := hquiet'
  have hreach : Reachable (filesSystem Bool).step (· = filesBoot false) s := ⟨_, _, rfl, hs⟩
  have hbefore := (file_references_exact false hreach).1 (Bool.forall_bool.mpr ⟨hf, ht'⟩)
  have hafter := (file_references_exact false (hreach.after ht)).1
    (Bool.forall_bool.mpr ⟨hf', ht''⟩)
  have hcard0 := (hbefore.1 0).1
  have hcard1 := (hbefore.1 1).1
  have hcard0' := (hafter.1 0).1
  have hcard1' := (hafter.1 1).1
  refine ⟨s, t, hs, ht, by omega, by omega, ?_, by omega, by omega, hfreed'⟩
  by_contra hnot
  have hmem := (hbefore.2 0 (by omega)).mpr hnot
  rw [hfreed] at hmem
  cases hmem

end Xv6Kernel
