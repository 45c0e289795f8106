import Xv6Kernel.OpenFileCounts

/-!
# Steps of the calls on open files

Each operation that the record of its process allows restores what the counts
stand for, and gives the answer that the process expects.
-/

namespace Xv6Kernel

open TraceExecution ThreadPrograms Function FileRecord OpenFile Finset FileOp

variable {P : Type} {s u : OpenFiles P} {L : P → FileRecord P} {p np : P} {file : OpenFile}
variable {l : FileRecord P} {f : Fin nfile}

/-! ## Operations on files -/

@[simp] theorem setFile_same (file : OpenFile) : (s.setFile f file).ftable f = file :=
  update_self ..

theorem setFile_of_ne {g : Fin nfile} (file : OpenFile) (hg : g ≠ f) :
    (s.setFile f file).ftable g = s.ftable g :=
  update_of_ne hg ..

variable [Fintype P]

theorem FilesOk.known_le (h : FilesOk s L) (p : P) (f : Fin nfile) :
    (L p).known f ≤ descriptors (s.ofile p) f + (L p).hand f := by
  have hseen := descriptors_mono (f := f) fun fd => h.views.seen_eq p fd f
  unfold known
  omega

theorem FilesOk.embryo_not_live {i : ℕ} (h : FilesOk s L)
    (hchild : (L p).child = some (np, i)) : (L np).live = false := by
  rw [Bool.eq_false_iff]
  intro hlive
  have hlife := (h.slots.live_iff np).mp hlive
  rw [(h.slots.embryo p np i hchild).1] at hlife
  cases hlife

variable [DecidableEq P]

theorem FilesOk.not_fresh (h : FilesOk s L) (hown : 1 ≤ descriptors (s.ofile p) f + (L p).hand f)
    (q : P) (hq : q ≠ p) : f ∉ (L q).fresh := by
  intro hfresh
  obtain ⟨-, href, hother⟩ := h.kinds.fresh_own q f hfresh
  have htwo := h.refs.two_le hq.symm hown hother.ge
  simp only [href] at htwo
  omega

theorem FilesOk.setFile (h : FilesOk s L)
    (hhand : ∀ g, g ≠ f → l.hand g = (L p).hand g)
    (href : file.ref + (L p).hand f = (s.ftable f).ref + l.hand f)
    (hown : 0 ≤ descriptors (s.ofile p) f + l.hand f)
    (hused : file.kind ≠ .none → 1 ≤ file.ref)
    (hfilled : 1 ≤ file.ref → file.kind = .none → f ∈ l.fresh)
    (hfresh : ∀ g, g ≠ f → (g ∈ l.fresh ↔ g ∈ (L p).fresh))
    (hself : f ∈ l.fresh → file.kind = .none ∧ file.ref = 1 ∧
      descriptors (s.ofile p) f + l.hand f = 1)
    (hothers : ∀ q, q ≠ p → f ∉ (L q).fresh)
    (hends : ∀ a b, file.isEnd a b + l.ends.count (a, b) =
      (s.ftable f).isEnd a b + (L p).ends.count (a, b))
    (hl : l = { L p with
      hand := l.hand
      fresh := l.fresh
      ends := l.ends }) :
    FilesOk (s.setFile f file) (update L p l) := by
  have hseen : l.seen = (L p).seen := by rw [hl]
  have hexiting : l.exiting = (L p).exiting := by rw [hl]
  have hlive : l.live = (L p).live := by rw [hl]
  have hchild : l.child = (L p).child := by rw [hl]
  have hpage : l.page = (L p).page := by rw [hl]
  refine ⟨?_, h.views.keep rfl hseen hexiting, h.slots.keep rfl rfl hlive hchild, ⟨?_, ?_, ?_⟩, ?_⟩
  · apply h.refs.change p
    · intro q _
      rfl
    · intro q hq
      rw [update_of_ne hq]
    · intro g
      simp only [update_self]
      by_cases hg : g = f
      · subst g
        rw [setFile_same]
        change _ = _ + (descriptors (s.ofile p) f + _)
        omega
      · rw [setFile_of_ne file hg, hhand g hg]
        rfl
    · intro g
      simp only [update_self]
      by_cases hg : g = f
      · rw [hg]
        exact hown
      · rw [hhand g hg]
        exact h.refs.own p g
  · intro g
    by_cases hg : g = f
    · rw [hg, setFile_same]
      exact hused
    · rw [setFile_of_ne file hg]
      exact h.kinds.used g
  · intro q g
    by_cases hq : q = p
    · subst q
      simp only [update_self]
      intro hmem
      by_cases hg : g = f
      · subst g
        rw [setFile_same]
        exact hself hmem
      · rw [setFile_of_ne file hg, hhand g hg]
        exact h.kinds.fresh_own p g ((hfresh g hg).mp hmem)
    · simp only [update_of_ne hq]
      intro hmem
      have hg : g ≠ f := by
        rintro rfl
        exact hothers q hq hmem
      rw [setFile_of_ne file hg]
      exact h.kinds.fresh_own q g hmem
  · intro g
    by_cases hg : g = f
    · subst g
      rw [setFile_same]
      intro hone hkind
      refine ⟨p, ?_⟩
      rw [update_self]
      exact hfilled hone hkind
    · rw [setFile_of_ne file hg]
      intro hone hkind
      obtain ⟨q, hq⟩ := h.kinds.filled g hone hkind
      refine ⟨q, ?_⟩
      by_cases hqp : q = p
      · subst q
        rw [update_self]
        exact (hfresh g hg).mpr hq
      · rw [update_of_ne hqp]
        exact hq
  · apply h.pipes.change p
    · intro q hq
      rw [update_of_ne hq]
    · intro q hq
      rw [update_of_ne hq]
    · intro a b
      have hsum := sum_add_of_move (f := fun g => (s.ftable g).isEnd a b)
        (g := fun g => ((s.setFile f file).ftable g).isEnd a b) f
        (by
          intro g hg
          simp only [setFile_of_ne file hg])
      have hmove := hends a b
      simp only [setFile_same, update_self] at hsum ⊢
      change (s.pipe a).isOpen b + _ = _
      omega
    · intro a
      simp only [update_self, hpage]
      rfl

theorem FilesOk.filealloc (h : FilesOk s L) (hf : (s.ftable f).ref = 0) :
    (∀ q, f ∉ (L q).fresh) ∧
      FilesOk (s.setFile f { s.ftable f with ref := 1 }) (update L p
        (next .filealloc (some f) (L p))) := by
  have hfree : ∀ q, f ∉ (L q).fresh := by
    intro q hq
    have href := (h.kinds.fresh_own q f hq).2.1
    omega
  have hkind : (s.ftable f).kind = .none := by
    by_contra hne
    have hused := h.kinds.used f hne
    omega
  have hnone : descriptors (s.ofile p) f + (L p).hand f = 0 := by
    have hle := h.refs.own_le p f
    have hge := h.refs.own p f
    simp only [hf] at hle
    omega
  refine ⟨hfree, h.setFile ?_ ?_ ?_ ?_ ?_ ?_ ?_ ?_ ?_ rfl⟩
  · intro g hg
    exact addHand_of_ne hg
  · change 1 + (L p).hand f = (s.ftable f).ref + ((L p).addHand f 1).hand f
    rw [addHand_self]
    omega
  · change 0 ≤ _ + ((L p).addHand f 1).hand f
    rw [addHand_self]
    omega
  · intro hne
    exact absurd hkind hne
  · intro _ _
    exact mem_insert_self f _
  · intro g hne
    exact mem_insert.trans (or_iff_right hne)
  · intro _
    refine ⟨hkind, rfl, ?_⟩
    change _ + ((L p).addHand f 1).hand f = 1
    rw [addHand_self]
    omega
  · intro q _
    exact hfree q
  · intro a b
    rfl

theorem FilesOk.filedup (h : FilesOk s L) (hknown : 1 ≤ (L p).known f) (hf : f ∉ (L p).fresh) :
    FilesOk (s.setFile f { s.ftable f with ref := (s.ftable f).ref + 1 })
      (update L p (next (.filedup f) () (L p))) := by
  have hle := h.known_le p f
  have href := h.refs.own_le p f
  have hothers := h.not_fresh (p := p) (f := f) (by omega)
  refine h.setFile ?_ ?_ ?_ ?_ ?_ ?_ ?_ hothers ?_ rfl
  · intro g hg
    exact addHand_of_ne hg
  · change (s.ftable f).ref + 1 + (L p).hand f = (s.ftable f).ref + ((L p).addHand f 1).hand f
    rw [addHand_self]
    omega
  · change 0 ≤ _ + ((L p).addHand f 1).hand f
    rw [addHand_self]
    omega
  · intro _
    change 1 ≤ (s.ftable f).ref + 1
    omega
  · intro _ hkind
    obtain ⟨q, hq⟩ := h.kinds.filled f (by omega) hkind
    by_cases hqp : q = p
    · exact hqp ▸ hq
    · exact absurd hq (hothers q hqp)
  · intro g _
    rfl
  · intro hmem
    exact absurd hmem hf
  · intro a b
    rfl

theorem count_endOf (file : OpenFile) (a : ℕ) (b : Bool) :
    (endOf (some file)).count (a, b) = file.isEnd a b := by
  obtain ⟨ref, kind, readable, writable⟩ := file
  cases kind with
  | none | inode => simp [endOf, isEnd]
  | pipe a' => simp [endOf, isEnd, List.count_singleton]

theorem FilesOk.fileclose {ff : Option OpenFile} (h : FilesOk s L) (hknown : 1 ≤ (L p).known f)
    (href : file.ref = (s.ftable f).ref - 1) (hused : file.kind ≠ .none ↔ 1 ≤ file.ref)
    (hends : ∀ a b, file.isEnd a b + (endOf ff).count (a, b) = (s.ftable f).isEnd a b) :
    FilesOk (s.setFile f file) (update L p
      (next (.fileclose f) ff (L p))) := by
  have hle := h.known_le p f
  refine h.setFile ?_ ?_ ?_ hused.mp ?_ ?_ ?_ ?_ ?_ rfl
  · intro g hg
    exact addHand_of_ne hg
  · change file.ref + (L p).hand f = (s.ftable f).ref + ((L p).addHand f (-1)).hand f
    rw [addHand_self]
    omega
  · change 0 ≤ _ + ((L p).addHand f (-1)).hand f
    rw [addHand_self]
    omega
  · intro hone hkind
    exact absurd hkind (hused.mpr hone)
  · intro g hne
    exact mem_erase.trans (and_iff_right hne)
  · intro hmem
    exact absurd rfl (ne_of_mem_erase hmem)
  · exact h.not_fresh (by omega)
  · intro a b
    change _ + (endOf ff ++ (L p).ends).count (a, b) = _
    rw [List.count_append, ← add_assoc, hends]

theorem FilesOk.setKind {ends : List (ℕ × Bool)} (h : FilesOk s L)
    (hf : f ∈ (L p).fresh) (href : file.ref = (s.ftable f).ref)
    (hfile : file.kind ≠ .none)
    (hends : ∀ a b, file.isEnd a b + ends.count (a, b) = (L p).ends.count (a, b)) :
    FilesOk (s.setFile f file) (update L p
      { L p with
        fresh := (L p).fresh.erase f
        ends := ends }) := by
  obtain ⟨hkind, hone, hown⟩ := h.kinds.fresh_own p f hf
  refine h.setFile ?_ ?_ ?_ ?_ ?_ ?_ ?_ ?_ ?_ rfl
  · intro g _
    rfl
  · rw [href]
  · exact h.refs.own p f
  · intro _
    rw [href, hone]
  · intro _ hnone
    exact absurd hnone hfile
  · intro g hne
    exact mem_erase.trans (and_iff_right hne)
  · intro hmem
    exact absurd rfl (ne_of_mem_erase hmem)
  · exact h.not_fresh hown.ge
  · intro a b
    have hold : (s.ftable f).isEnd a b = 0 := by
      simp [isEnd, hkind]
    rw [hold, zero_add]
    exact hends a b

theorem FilesOk.of_pipes (h : FilesOk s L)
    (hu : u = { s with
      pipe := u.pipe
      pipes := u.pipes
      freed := u.freed })
    (hl : l = { L p with
      ends := l.ends
      page := l.page })
    (hopen : ∀ a b, (u.pipe a).isOpen b + (L p).ends.count (a, b) =
      (s.pipe a).isOpen b + l.ends.count (a, b))
    (hpages : ∀ a, (u.pipe a).inUse + (if l.page = some a then 1 else 0) +
        u.freed.count a + (if a < s.pipes then 1 else 0) =
      (s.pipe a).inUse + (if (L p).page = some a then 1 else 0) + s.freed.count a +
        (if a < u.pipes then 1 else 0)) :
    FilesOk u (update L p l) := by
  have hftable : u.ftable = s.ftable := by rw [hu]
  have hofile : u.ofile = s.ofile := by rw [hu]
  have hlife : u.life = s.life := by rw [hu]
  have hhand : l.hand = (L p).hand := by rw [hl]
  have hpipes : PipesOk u.ftable u.pipe u.pipes u.freed
      (fun q => (update L p l q).ends)
      (fun q => (update L p l q).page) := by
    apply h.pipes.change p
    · intro q hq
      rw [update_of_ne hq]
    · intro q hq
      rw [update_of_ne hq]
    · intro a b
      have hmove := hopen a b
      simp only [update_self, hftable]
      omega
    · intro a
      simp only [update_self]
      exact hpages a
  exact ⟨h.keep_refs (by simp [hftable]) hofile hhand,
    h.views.keep hofile (by rw [hl]) (by rw [hl]),
    h.slots.keep hlife hofile (by rw [hl]) (by rw [hl]),
    h.kinds.keep hftable hofile hhand (by rw [hl]), hpipes⟩

theorem PipeEnds.isOpen_le_inUse (ends : PipeEnds) (b : Bool) : ends.isOpen b ≤ ends.inUse := by
  obtain ⟨readopen, writeopen⟩ := ends
  cases readopen <;> cases writeopen <;> cases b <;> decide

theorem PipeEnds.inUse_le_one (ends : PipeEnds) : ends.inUse ≤ 1 := by
  unfold PipeEnds.inUse
  split <;> simp

theorem FilesOk.kalloc (h : FilesOk s L) :
    FilesOk { s with
        pipe := update s.pipe s.pipes ⟨true, true⟩
        pipes := s.pipes + 1 }
      (update L p (next (.kalloc true) (some s.pipes) (L p))) := by
  have hunused : (s.pipe s.pipes).inUse = 0 := by
    have hpages := h.pipes.pages_eq s.pipes
    simp only [lt_irrefl, if_false] at hpages
    omega
  refine h.of_pipes rfl rfl ?_ ?_
  · intro a b
    have hcount : (next (.kalloc true) (some s.pipes) (L p)).ends.count
        (a, b) = (L p).ends.count (a, b) + if a = s.pipes then 1 else 0 := by
      change List.count (a, b) ((s.pipes, false) :: (s.pipes, true) :: (L p).ends) = _
      by_cases ha : a = s.pipes
      · subst a
        cases b <;> simp
      · simp [ha, Ne.symm ha]
    rw [hcount]
    by_cases ha : a = s.pipes
    · subst a
      have hclosed := (s.pipe s.pipes).isOpen_le_inUse b
      have hopen : (PipeEnds.mk true true).isOpen b = 1 := by cases b <;> rfl
      simp only [update_self, if_true, hopen]
      omega
    · simp only [update_of_ne ha, if_neg ha]
      omega
  · intro a
    change _ + (if (L p).page = some a then 1 else 0) + _ + _ = _
    by_cases ha : a = s.pipes
    · subst a
      have hopen : (PipeEnds.mk true true).inUse = 1 := rfl
      simp only [update_self, lt_irrefl, if_false, hopen, Nat.lt_succ_self, if_true]
      omega
    · have hlt : a < s.pipes + 1 ↔ a < s.pipes := by omega
      simp only [update_of_ne ha, hlt]

theorem PipeEnds.close_isOpen (ends : PipeEnds) (w b : Bool) :
    (ends.close w).isOpen b = if b = w then 0 else ends.isOpen b := by
  cases w <;> cases b <;> simp [PipeEnds.close, PipeEnds.isOpen]

theorem PipeEnds.close_inUse (ends : PipeEnds) (w : Bool) :
    (ends.close w).inUse +
        (if !(ends.close w).readopen && !(ends.close w).writeopen then 1 else 0) = 1 := by
  simp only [PipeEnds.inUse]
  cases (ends.close w).readopen <;> cases (ends.close w).writeopen <;> rfl

section

variable (h : FilesOk s L)

include h

theorem FilesOk.pipeclose {a : ℕ} {w : Bool}
    (hend : (a, w) ∈ (L p).ends) (hpage : (L p).page = none) :
    FilesOk { s with pipe := update s.pipe a ((s.pipe a).close w) }
      (update L p (next (.pipeclose a w)
        (!((s.pipe a).close w).readopen && !((s.pipe a).close w).writeopen)
        (L p))) := by
  have hcount : 1 ≤ (L p).ends.count (a, w) := List.one_le_count_iff.mpr hend
  have hle : (L p).ends.count (a, w) ≤ (s.pipe a).isOpen w := by
    rw [← h.pipes.ends_eq a w]
    have hsingle := single_le_sum (f := fun q => (L q).ends.count (a, w))
      (fun q _ => Nat.zero_le _) (mem_univ p)
    omega
  have hopened := (s.pipe a).isOpen_le_inUse w
  have huse : (s.pipe a).inUse = 1 := by
    have hone := (s.pipe a).inUse_le_one
    omega
  refine h.of_pipes rfl rfl ?_ ?_
  · intro a' b
    change _ = _ + ((L p).ends.erase (a, w)).count (a', b)
    by_cases ha : a' = a
    · subst a'
      simp only [update_self, PipeEnds.close_isOpen, List.count_erase]
      by_cases hb : b = w
      · subst b
        simp only [if_true, beq_self_eq_true]
        omega
      · simp [hb, Ne.symm hb]
    · simp [update_of_ne ha, List.count_erase, Ne.symm ha]
  · intro a'
    simp only [next, hpage]
    by_cases ha : a' = a
    · subst a'
      have hclose := (s.pipe a).close_inUse w
      simp only [update_self, huse]
      generalize (s.pipe a).close w = ends at *
      cases hlast : (!ends.readopen && !ends.writeopen) <;>
        simp only [hlast, if_true, reduceCtorEq, if_false] at hclose ⊢ <;> omega
    · have hnone : ((if (!((s.pipe a).close w).readopen &&
          !((s.pipe a).close w).writeopen) = true then some a else none) =
          some a') ↔ False := by
        split <;> simp [Ne.symm ha]
      simp only [update_of_ne ha, hnone, reduceCtorEq, if_false]

theorem FilesOk.kfree {a : ℕ} (hpage : (L p).page = some a) :
    FilesOk { s with freed := s.freed ++ [a] }
      (update L p (next (.kfree a) () (L p))) := by
  refine h.of_pipes rfl rfl ?_ ?_
  · intro a' b
    rfl
  · intro a'
    simp only [next, hpage, List.count_append, List.count_singleton,
      reduceCtorEq, if_false, Option.some.injEq, beq_iff_eq]
    omega

/-! ## Operations on process slots -/

theorem FilesOk.of_slots
    (hu : u = { s with
      life := u.life
      parent := u.parent })
    (hl : l = { L p with
      child := l.child
      exiting := l.exiting
      live := l.live })
    (hexiting : ∀ i, l.exiting = some i → ∀ fd : Fin nofile, fd.val < i →
      s.ofile p fd = none)
    (hslots : SlotsOk u.life s.ofile (fun q => (update L p l q).live)
      fun q => (update L p l q).child) :
    FilesOk u (update L p l) := by
  have hftable : u.ftable = s.ftable := by rw [hu]
  have hofile : u.ofile = s.ofile := by rw [hu]
  have hhand : l.hand = (L p).hand := by rw [hl]
  refine ⟨h.keep_refs (by simp [hftable]) hofile hhand, ?_, ?_,
    h.kinds.keep hftable hofile hhand (by rw [hl]), ?_⟩
  · apply h.views.set
    · intro q _
      rw [hofile]
    · rw [hofile, hl]
      exact h.views.seen_eq p
    · rw [hofile]
      exact hexiting
  · rw [hofile]
    exact hslots
  · exact h.keep_pipes (by simp [hftable]) (by rw [hu]) (by rw [hu]) (by rw [hu])
      (by rw [hl]) (by rw [hl])

theorem FilesOk.allocproc (hchild : (L p).child = none) (hnp : s.life np = .unused) :
    FilesOk (s.setLife np .embryo)
      (update L p (next (.allocproc np) () (L p))) := by
  have hmine : ∀ q m i, (update L p
      (next (.allocproc np) () (L p)) q).child = some (m, i) →
      q = p ∧ m = np ∧ i = 0 ∨ q ≠ p ∧ m ≠ np ∧ (L q).child = some (m, i) := by
    intro q m i hm
    by_cases hq : q = p
    · subst q
      rw [update_self] at hm
      cases hm
      exact Or.inl ⟨rfl, rfl, rfl⟩
    · rw [update_of_ne hq] at hm
      refine Or.inr ⟨hq, ?_, hm⟩
      rintro rfl
      have hembryo := (h.slots.embryo q m i hm).1
      rw [hnp] at hembryo
      cases hembryo
  refine h.of_slots rfl rfl (h.views.exiting_none p) ⟨?_, ?_, ?_, ?_⟩
  · intro q
    by_cases hq : q = np
    · subst q
      simp [OpenFiles.setLife]
    · simp only [OpenFiles.setLife, update_of_ne hq]
      exact h.slots.vacant q
  · intro q
    have hlive := update_proj (L := L) (p := p) (l := next (.allocproc np) () (L p)) live rfl q
    rw [hlive, h.slots.live_iff q]
    by_cases hq : q = np
    · subst q
      simp [OpenFiles.setLife, hnp]
    · simp [OpenFiles.setLife, hq]
  · intro q m i hm
    rcases hmine q m i hm with ⟨-, rfl, -⟩ | ⟨-, hne, hm'⟩
    · refine ⟨update_self .., ?_⟩
      intro fd _
      exact h.slots.vacant m (Or.inl hnp) fd
    · simp only [OpenFiles.setLife, update_of_ne hne]
      exact h.slots.embryo q m i hm'
  · intro q r m i j hq hr
    rcases hmine q m i hq with ⟨rfl, rfl, -⟩ | ⟨-, hne, hq'⟩
    · rcases hmine r m j hr with ⟨rfl, -, -⟩ | ⟨-, hne, -⟩
      · rfl
      · exact absurd rfl hne
    · rcases hmine r m j hr with ⟨-, rfl, -⟩ | ⟨-, -, hr'⟩
      · exact absurd rfl hne
      · exact h.slots.parent q r m i j hq' hr'

theorem FilesOk.other_child {i : ℕ} (hchild : (L p).child = some (np, i))
    (hl : l.child = none) (q m : P) (j : ℕ) (hm : (update L p l q).child = some (m, j)) :
    m ≠ np ∧ (L q).child = some (m, j) := by
  have hq : q ≠ p := by
    rintro rfl
    rw [update_self, hl] at hm
    cases hm
  rw [update_of_ne hq] at hm
  refine ⟨?_, hm⟩
  rintro rfl
  exact hq (h.slots.parent q p m j i hm hchild)

theorem FilesOk.freeproc (hchild : (L p).child = some (np, 0)) :
    FilesOk (s.setLife np .unused)
      (update L p (next (.freeproc np) () (L p))) := by
  have hlive := update_proj (L := L) (p := p) (l := next (.freeproc np) () (L p)) live rfl
  refine h.of_slots rfl rfl (h.views.exiting_none p) (h.slots.setLife ?_ ?_ ?_ ?_)
  · intro _ fd
    exact (h.slots.embryo p np 0 hchild).2 fd (Nat.zero_le _)
  · simp [hlive, h.embryo_not_live hchild]
  · intro q _
    exact hlive q
  · exact h.other_child hchild rfl

theorem FilesOk.exitEnd (hlife : s.life p = .live)
    (hexiting : (L p).exiting = some nofile) {parent : P → Option P} :
    FilesOk { s.setLife p .zombie with parent := parent }
      (update L p (next .exitEnd () (L p))) := by
  refine h.of_slots rfl rfl ?_ (h.slots.setLife ?_ ?_ ?_ ?_)
  · intro i hi
    cases hi
  · intro _ fd
    exact h.views.exiting_none p nofile hexiting fd fd.isLt
  · simp [next]
  · intro q hq
    rw [update_of_ne hq]
  · intro q m i hm
    have hm' : (L q).child = some (m, i) := by
      rw [← hm]
      exact (update_proj child (by rfl) q).symm
    refine ⟨?_, hm'⟩
    rintro rfl
    have hembryo := (h.slots.embryo q m i hm').1
    rw [hlife] at hembryo
    cases hembryo

theorem FilesOk.reap {child : P} (hchild : s.life child = .zombie) {parent : P → Option P} :
    FilesOk { s.setLife child .unused with parent := parent }
      (update L p (L p)) := by
  refine h.of_slots rfl rfl (h.views.exiting_none p) ?_
  rw [update_eq_self]
  refine h.slots.setLife ?_ ?_ ?_ ?_
  · intro _
    exact h.slots.vacant child (Or.inr hchild)
  · rw [h.slots.live_iff, hchild]
    simp
  · intro q _
    rfl
  · intro q m i hm
    refine ⟨?_, hm⟩
    rintro rfl
    have hembryo := (h.slots.embryo q m i hm).1
    rw [hchild] at hembryo
    cases hembryo

end

/-! ### A descriptor for the child -/

section Give

variable {np : P} {fd : Fin nofile} {i : ℕ}

theorem RefsOk.give {ref : Fin nfile → ℤ} {hand : P → Fin nfile → ℤ} (h : RefsOk ref s.ofile hand)
    (hfd : s.ofile np fd = none) (hhand : 1 ≤ hand p f) :
    RefsOk ref (s.setFd np fd (some f)).ofile
      (update hand p (update (hand p) f (hand p f + -1))) := by
  have hgiven : RefsOk (fun g => ref g - if g = f then 1 else 0) s.ofile
      (update hand p (update (hand p) f (hand p f + -1))) := by
    apply h.change p
    · intro q _
      rfl
    · intro q hq
      rw [update_of_ne hq]
    · intro g
      rw [update_self]
      by_cases hg : g = f
      · subst g
        rw [update_self, if_pos rfl]
        omega
      · rw [update_of_ne hg, if_neg hg]
        omega
    · intro g
      rw [update_self]
      by_cases hg : g = f
      · subst g
        have hnonneg := descriptors_nonneg (s.ofile p) f
        rw [update_self]
        omega
      · rw [update_of_ne hg]
        exact h.own p g
  have hupdate : ∀ g, descriptors ((s.setFd np fd (some f)).ofile np) g =
      descriptors (s.ofile np) g + if g = f then 1 else 0 := by
    intro g
    have hset := descriptors_update (s.ofile np) fd g (some f)
    rw [hfd] at hset
    simp only [reduceCtorEq, if_false, Option.some.injEq, @eq_comm _ f] at hset
    rw [setFd_self]
    omega
  apply hgiven.change np
  · intro q hq
    exact setFd_of_ne hq
  · intro q _
    rfl
  · intro g
    rw [hupdate]
    omega
  · intro g
    have hown := hgiven.own np g
    rw [hupdate]
    split <;> omega

theorem FilesOk.setChildFd (h : FilesOk s L) (hhand : 1 ≤ (L p).hand f) (hfresh : f ∉ (L p).fresh)
    (hi : i ≤ fd.val) (hchild : (L p).child = some (np, i)) (hidle : (L np).Idle) :
    FilesOk (s.setFd np fd (some f))
      (update L p (next (.setChildFd np fd f) () (L p))) := by
  have hfd := (h.slots.embryo p np i hchild).2 fd hi
  let l : FileRecord P := next (.setChildFd np fd f) () (L p)
  have hhands : (fun q => (update L p l q).hand) =
      update (fun q => (L q).hand) p l.hand :=
    comp_update hand L p l
  have hchildren : (fun q => (update L p l q).child) =
      update (fun q => (L q).child) p l.child :=
    comp_update child L p l
  refine ⟨?_, (h.views.give hfd hidle.exiting).keep rfl rfl rfl, ?_, ?_,
    h.keep_pipes (fun _ _ _ => rfl) rfl rfl rfl rfl rfl⟩
  · rw [hhands]
    exact h.refs.give hfd hhand
  · rw [hchildren, proj_update live (by rfl)]
    exact h.slots.give hchild hi
  · rw [hhands, proj_update fresh (by rfl)]
    exact h.kinds.give hfresh hidle.fresh

end Give

theorem FilesOk.setRunnable {np : P} {i : ℕ} (h : FilesOk s L) (hlive : (L p).live = true)
    (hchild : (L p).child = some (np, i)) (hidle : (L np).Idle) :
    FilesOk (s.setLife np .live)
      (update (update L p (next (.setRunnable np) () (L p)))
        np { L np with live := true }) := by
  have hother := h.other_child hchild (l := { L p with child := none }) rfl
  have hgone : FilesOk s (update L p { L p with child := none }) := by
    have hslots := h.slots.setLife (h.slots.vacant np) (h.slots.live_iff np) (fun q _ => rfl) hother
    rw [update_eq_self] at hslots
    refine h.of_slots rfl rfl (h.views.exiting_none p) ?_
    rw [proj_update live (by rfl)]
    exact hslots
  have hne : np ≠ p := by
    rintro rfl
    rw [h.embryo_not_live hchild] at hlive
    cases hlive
  have hnp : update L p { L p with child := none } np = L np := update_of_ne hne ..
  refine hgone.of_slots rfl (by rw [hnp]) ?_ (hgone.slots.setLife ?_ ?_ ?_ ?_)
  · intro j hj
    change (L np).exiting = some j at hj
    rw [hidle.exiting] at hj
    cases hj
  · simp
  · simp
  · intro q hq
    rw [update_of_ne hq]
  · intro q m j hm
    rw [update_proj child (by rw [hnp])] at hm
    exact ⟨(hother q m j hm).1, hm⟩

theorem FilesOk.fileclose_op {r : Option OpenFile} (h : FilesOk s L)
    (hknown : 1 ≤ (L p).known f) (hrun : run p (.fileclose f) s = .ok (r, u)) :
    resp (.fileclose f) r (L p) ∧
      FilesOk u (update L p (next (.fileclose f) r (L p))) := by
  simp only [run, bind_eq_ok, ensure_eq_ok] at hrun
  obtain ⟨-, -, hrun⟩ := hrun
  split at hrun
  next hmore =>
    cases hrun
    refine ⟨fun _ => rfl, h.fileclose hknown rfl ?_ ?_⟩
    · refine iff_of_true ?_ ?_
      · intro hnone
        obtain ⟨q, hq⟩ := h.kinds.filled f (by omega) hnone
        have hone := (h.kinds.fresh_own q f hq).2.1
        omega
      · change 1 ≤ (s.ftable f).ref - 1
        omega
    · intro a b
      rfl
  next hlast =>
    cases hrun
    have hone : (s.ftable f).ref = 1 := by
      have hle := h.known_le p f
      have hown := h.refs.own_le p f
      omega
    refine ⟨?_, h.fileclose hknown ?_ ?_ ?_⟩
    · intro hfresh
      have hkind := (h.kinds.fresh_own p f hfresh).1
      simp [endOf, hkind]
    · simp [hone]
    · simp
    · intro a b
      rw [count_endOf]
      simp [isEnd]

theorem FilesOk.op {o : FileOp P} {r : o.Resp} (h : FilesOk s L)
    (hpre : (fileDiscipline P).pre o (L p)) (hidle : ∀ q, (L q).live = false → (L q).Idle)
    (hrun : o.run p s = .ok (r, u)) (hnot : ∀ np, o ≠ .setRunnable np) :
    resp o r (L p) ∧
      FilesOk u (update L p (next o r (L p))) := by
  obtain ⟨hlive, hpre⟩ := hpre
  have hlife : s.life p = .live := (h.slots.live_iff p).mp hlive
  cases o with
  | argfd fd =>
    cases hrun
    exact ⟨trivial, h.argfd⟩
  | fdalloc f =>
    simp only [run] at hrun
    split at hrun
    next fd hfd =>
      cases hrun
      have hnone : s.ofile p fd = none := by simpa using List.find?_some hfd
      refine ⟨?_, h.fdalloc hlife hpre hnone⟩
      rintro _ ⟨⟩
      rw [Option.eq_none_iff_forall_ne_some]
      intro f' hseen
      rw [h.views.seen_eq p fd f' hseen] at hnone
      cases hnone
    next =>
      cases hrun
      refine ⟨by rintro _ ⟨⟩, ?_⟩
      simpa [next] using h
  | fdclear fd =>
    cases hrun
    obtain ⟨f, hseen⟩ := Option.ne_none_iff_exists'.mp hpre
    exact ⟨trivial, h.fdclear hlife hseen⟩
  | filealloc =>
    simp only [run] at hrun
    split at hrun
    next f hf =>
      cases hrun
      have hfree : (s.ftable f).ref = 0 := by simpa using List.find?_some hf
      refine ⟨?_, (h.filealloc hfree).2⟩
      rintro _ ⟨⟩
      exact (h.filealloc (p := p) hfree).1 p
    next =>
      cases hrun
      refine ⟨by rintro _ ⟨⟩, ?_⟩
      simpa [next] using h
  | filedup f =>
    simp only [run, bind_eq_ok, ensure_eq_ok, pure_eq_ok] at hrun
    obtain ⟨-, -, hrun⟩ := hrun
    cases hrun
    exact ⟨trivial, h.filedup hpre.1 hpre.2⟩
  | fileclose f => exact h.fileclose_op hpre hrun
  | setInode f ip readable writable =>
    cases hrun
    refine ⟨trivial, h.setKind hpre rfl (by simp) ?_⟩
    intro a b
    simp [isEnd]
  | kalloc memory =>
    cases memory with
    | true =>
      cases hrun
      exact ⟨trivial, h.kalloc⟩
    | false =>
      cases hrun
      refine ⟨trivial, ?_⟩
      simpa [next] using h
  | setPipe f a writable =>
    cases hrun
    refine ⟨trivial, h.setKind hpre.1 rfl (by simp) ?_⟩
    intro a' b
    by_cases hend : (a', b) = (a, writable)
    · cases hend
      have hcount := List.one_le_count_iff.mpr hpre.2
      rw [List.count_erase_self]
      simp only [isEnd, and_self, if_true]
      omega
    · have hother : ¬ (FileKind.pipe a = .pipe a' ∧ writable = b) := by
        rintro ⟨⟨⟩, rfl⟩
        exact hend rfl
      rw [List.count_erase_of_ne hend]
      simp only [isEnd, if_neg hother, zero_add]
  | pipeclose a writable =>
    cases hrun
    exact ⟨trivial, h.pipeclose hpre.1 hpre.2⟩
  | kfree a =>
    cases hrun
    exact ⟨trivial, h.kfree hpre⟩
  | iput =>
    cases hrun
    refine ⟨trivial, ?_⟩
    simpa [next] using h
  | allocproc np =>
    simp only [run, bind_eq_ok, await_eq_ok, pure_eq_ok] at hrun
    obtain ⟨-, hunused, hrun⟩ := hrun
    cases hrun
    exact ⟨trivial, h.allocproc hpre hunused⟩
  | freeproc np =>
    cases hrun
    exact ⟨trivial, h.freeproc hpre⟩
  | setParent np =>
    cases hrun
    refine ⟨trivial, h.of_slots rfl rfl (h.views.exiting_none p) ?_⟩
    simpa [next] using h.slots
  | setChildFd np fd f =>
    cases hrun
    obtain ⟨hhand, hfresh, i, hi, hchild⟩ := hpre
    exact ⟨trivial, h.setChildFd hhand hfresh hi hchild (hidle np (h.embryo_not_live hchild))⟩
  | setRunnable np => exact absurd rfl (hnot np)
  | exitBegin =>
    simp only [run, bind_eq_ok, ensure_eq_ok, pure_eq_ok] at hrun
    obtain ⟨-, -, hrun⟩ := hrun
    cases hrun
    refine ⟨trivial, h.learn (h.views.seen_eq p) ?_ rfl⟩
    intro i hi fd hlt
    cases hi
    exact absurd hlt (Nat.not_lt_zero _)
  | exitEnd =>
    cases hrun
    exact ⟨trivial, h.exitEnd hlife hpre⟩
  | reap child =>
    simp only [run, bind_eq_ok, await_eq_ok, pure_eq_ok] at hrun
    obtain ⟨-, hzombie, hrun⟩ := hrun
    cases hrun
    exact ⟨trivial, h.reap hzombie.1⟩

end Xv6Kernel
