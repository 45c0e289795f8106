import Xv6Kernel.OpenFileDiscipline

/-!
# What the counts of open files stand for

The reference count of a file is the number of references that processes own,
in descriptors or in hand.  An end of a pipe is open as long as there is a file
that stands for it, or a process that has to create or to close it; and the page
of a pipe is in use, about to be freed, or freed, and only one of these.
-/

namespace Xv6Kernel

open TraceExecution ThreadPrograms Function FileRecord

variable {P : Type}

/-- `ref` counts what the processes own. -/
structure RefsOk [Fintype P] (ref : Fin nfile → ℤ)
    (ofile : P → Fin nofile → Option (Fin nfile)) (hand : P → Fin nfile → ℤ) :
    Prop where
  total : ∀ f, ref f = ∑ q, (descriptors (ofile q) f + hand q f)
  own : ∀ q f, 0 ≤ descriptors (ofile q) f + hand q f

section Refs

variable [Fintype P] [DecidableEq P]
variable {ref ref' : Fin nfile → ℤ} {ofile ofile' : P → Fin nofile → Option (Fin nfile)}
variable {hand hand' : P → Fin nfile → ℤ} {p q : P} {f : Fin nfile}

theorem RefsOk.change (h : RefsOk ref ofile hand) (p : P)
    (hofile : ∀ q, q ≠ p → ofile' q = ofile q) (hhand : ∀ q, q ≠ p → hand' q = hand q)
    (hcount : ∀ f, ref' f + (descriptors (ofile p) f + hand p f) =
      ref f + (descriptors (ofile' p) f + hand' p f))
    (hown : ∀ f, 0 ≤ descriptors (ofile' p) f + hand' p f) :
    RefsOk ref' ofile' hand' := by
  constructor
  · intro f
    have hsum := sum_add_of_move (f := fun q => descriptors (ofile q) f + hand q f)
      (g := fun q => descriptors (ofile' q) f + hand' q f) p
      (by
        intro q hq
        simp only [hofile q hq, hhand q hq])
    have hf := hcount f
    have htotal := h.total f
    omega
  · intro q f
    by_cases hq : q = p
    · rw [hq]
      exact hown f
    · rw [hofile q hq, hhand q hq]
      exact h.own q f

omit [DecidableEq P] in
theorem RefsOk.own_le (h : RefsOk ref ofile hand) (p : P) (f : Fin nfile) :
    descriptors (ofile p) f + hand p f ≤ ref f := by
  rw [h.total f]
  exact Finset.single_le_sum
    (f := fun q => descriptors (ofile q) f + hand q f)
    (fun q _ => h.own q f) (Finset.mem_univ p)

theorem RefsOk.two_le (h : RefsOk ref ofile hand) (hpq : p ≠ q)
    (hp : 1 ≤ descriptors (ofile p) f + hand p f)
    (hq : 1 ≤ descriptors (ofile q) f + hand q f) : 2 ≤ ref f := by
  have hle : ∑ r ∈ {p, q}, (descriptors (ofile r) f + hand r f) ≤ ref f := by
    rw [h.total f]
    exact Finset.sum_le_sum_of_subset_of_nonneg (Finset.subset_univ _) fun r _ _ => h.own r f
  rw [Finset.sum_pair hpq] at hle
  omega

end Refs

structure ViewsOk (ofile seen : P → Fin nofile → Option (Fin nfile))
    (exiting : P → Option ℕ) : Prop where
  seen_eq : ∀ q fd f, seen q fd = some f → ofile q fd = some f
  exiting_none : ∀ q i, exiting q = some i → ∀ fd : Fin nofile, fd.val < i →
    ofile q fd = none

structure SlotsOk (life : P → Life) (ofile : P → Fin nofile → Option (Fin nfile))
    (live : P → Bool) (child : P → Option (P × ℕ)) : Prop where
  vacant : ∀ q, life q = .unused ∨ life q = .zombie → ∀ fd, ofile q fd = none
  live_iff : ∀ q, live q = true ↔ life q = .live
  embryo : ∀ q np i, child q = some (np, i) →
    life np = .embryo ∧ ∀ fd : Fin nofile, i ≤ fd.val → ofile np fd = none
  parent : ∀ q r np i j, child q = some (np, i) → child r = some (np, j) → q = r

structure KindsOk (ftable : Fin nfile → OpenFile)
    (ofile : P → Fin nofile → Option (Fin nfile)) (hand : P → Fin nfile → ℤ)
    (fresh : P → Finset (Fin nfile)) : Prop where
  used : ∀ f, (ftable f).kind ≠ .none → 1 ≤ (ftable f).ref
  fresh_own : ∀ q f, f ∈ fresh q → (ftable f).kind = .none ∧ (ftable f).ref = 1 ∧
    descriptors (ofile q) f + hand q f = 1
  filled : ∀ f, 1 ≤ (ftable f).ref → (ftable f).kind = .none → ∃ q, f ∈ fresh q

def OpenFile.isEnd (file : OpenFile) (a : ℕ) (writable : Bool) : ℕ :=
  if file.kind = .pipe a ∧ file.writable = writable then 1 else 0

def PipeEnds.isOpen (ends : PipeEnds) (writable : Bool) : ℕ :=
  if (if writable then ends.writeopen else ends.readopen) then 1 else 0

def PipeEnds.inUse (ends : PipeEnds) : ℕ :=
  if ends.readopen || ends.writeopen then 1 else 0

structure PipesOk [Fintype P] (ftable : Fin nfile → OpenFile) (pipe : ℕ → PipeEnds)
    (pipes : ℕ) (freed : List ℕ) (ends : P → List (ℕ × Bool)) (page : P → Option ℕ) :
    Prop where
  ends_eq : ∀ a b, ∑ f, (ftable f).isEnd a b + ∑ q, (ends q).count (a, b) =
    (pipe a).isOpen b
  pages_eq : ∀ a, (pipe a).inUse + ∑ q, (if page q = some a then 1 else 0) +
    freed.count a = if a < pipes then 1 else 0

theorem PipesOk.change [Fintype P] [DecidableEq P] {ftable ftable' : Fin nfile → OpenFile}
    {pipe pipe' : ℕ → PipeEnds} {pipes pipes' : ℕ} {freed freed' : List ℕ}
    {ends ends' : P → List (ℕ × Bool)} {page page' : P → Option ℕ}
    (h : PipesOk ftable pipe pipes freed ends page) (p : P)
    (hends : ∀ q, q ≠ p → ends' q = ends q) (hpage : ∀ q, q ≠ p → page' q = page q)
    (hopen : ∀ a b, (pipe' a).isOpen b +
        (∑ f, (ftable f).isEnd a b + (ends p).count (a, b)) =
      (pipe a).isOpen b + (∑ f, (ftable' f).isEnd a b + (ends' p).count (a, b)))
    (hpages : ∀ a, (pipe' a).inUse + (if page' p = some a then 1 else 0) +
        freed'.count a + (if a < pipes then 1 else 0) =
      (pipe a).inUse + (if page p = some a then 1 else 0) + freed.count a +
        (if a < pipes' then 1 else 0)) :
    PipesOk ftable' pipe' pipes' freed' ends' page' := by
  constructor
  · intro a b
    have hsum := sum_add_of_move (f := fun q => (ends q).count (a, b))
      (g := fun q => (ends' q).count (a, b)) p
      (by
        intro q hq
        simp only [hends q hq])
    have hbefore := h.ends_eq a b
    have hchange := hopen a b
    omega
  · intro a
    have hsum := sum_add_of_move (f := fun q => if page q = some a then 1 else 0)
      (g := fun q => if page' q = some a then 1 else 0) p
      (by
        intro q hq
        simp only [hpage q hq])
    have hbefore := h.pages_eq a
    have hchange := hpages a
    omega

/-! ## The invariant -/

structure FilesOk [Fintype P] (s : OpenFiles P) (L : P → FileRecord P) : Prop where
  refs : RefsOk (fun f => (s.ftable f).ref) s.ofile fun q => (L q).hand
  views : ViewsOk s.ofile (fun q => (L q).seen) fun q => (L q).exiting
  slots : SlotsOk s.life s.ofile (fun q => (L q).live) fun q => (L q).child
  kinds : KindsOk s.ftable s.ofile (fun q => (L q).hand) fun q => (L q).fresh
  pipes : PipesOk s.ftable s.pipe s.pipes s.freed (fun q => (L q).ends)
    fun q => (L q).page

section Pieces

variable {s u : OpenFiles P} {L : P → FileRecord P} {p : P} {l : FileRecord P} {fd : Fin nofile}
  {g : Option (Fin nfile)}

theorem ViewsOk.passed (h : ViewsOk s.ofile (fun q => (L q).seen) fun q => (L q).exiting)
    (hfd : u.ofile p fd = none) (hother : ∀ fd', fd' ≠ fd → u.ofile p fd' = s.ofile p fd') {i : ℕ}
    (hi : ((L p).passed fd).exiting = some i) (fd' : Fin nofile) (hlt : fd'.val < i) :
    u.ofile p fd' = none := by
  by_cases heq : fd' = fd
  · rw [heq, hfd]
  · rw [hother fd' heq]
    simp only [FileRecord.passed] at hi
    split at hi
    next hexiting =>
      obtain rfl := Option.some.inj hi
      have hne : fd'.val ≠ fd.val := fun hval => heq (Fin.ext hval)
      exact h.exiting_none p _ hexiting fd' (by omega)
    next => exact h.exiting_none p i hi fd' hlt

theorem ViewsOk.look (h : ViewsOk s.ofile (fun q => (L q).seen) fun q => (L q).exiting)
    {fd' : Fin nofile} {f : Fin nfile} (hfd : u.ofile p fd = g)
    (hother : ∀ fd', fd' ≠ fd → u.ofile p fd' = s.ofile p fd')
    (hseen : ((L p).look fd g).seen fd' = some f) : u.ofile p fd' = some f := by
  by_cases heq : fd' = fd
  · subst heq
    simp only [FileRecord.look, update_self] at hseen
    rw [hfd, hseen]
  · simp only [FileRecord.look, update_of_ne heq] at hseen
    rw [hother fd' heq]
    exact h.seen_eq p fd' f hseen

variable [DecidableEq P]

theorem update_proj {α : Type} (g : FileRecord P → α) (hg : g l = g (L p)) (q : P) :
    g (update L p l q) = g (L q) := by
  by_cases hq : q = p
  · subst q
    simp [hg]
  · simp [hq]

theorem proj_update {α : Type} (g : FileRecord P → α) (hg : g l = g (L p)) :
    (fun q => g (update L p l q)) = fun q => g (L q) :=
  funext (update_proj g hg)

theorem setFd_self : (s.setFd p fd g).ofile p = update (s.ofile p) fd g :=
  update_self ..

theorem setFd_of_ne {q : P} (hq : q ≠ p) : (s.setFd p fd g).ofile q = s.ofile q :=
  update_of_ne hq ..

section Descriptor

variable {fd fd' : Fin nofile} {g : Option (Fin nfile)}

theorem setFd_other (hne : fd' ≠ fd) : (s.setFd p fd g).ofile p fd' = s.ofile p fd' := by
  rw [setFd_self, update_of_ne hne]

theorem setFd_same : (s.setFd p fd g).ofile p fd = g := by
  rw [setFd_self, update_self]

end Descriptor

/-! ### Pieces that an operation does not touch -/

theorem ViewsOk.keep (h : ViewsOk s.ofile (fun q => (L q).seen) fun q => (L q).exiting)
    (hofile : u.ofile = s.ofile) (hseen : l.seen = (L p).seen)
    (hexiting : l.exiting = (L p).exiting) :
    ViewsOk u.ofile (fun q => (update L p l q).seen)
      fun q => (update L p l q).exiting := by
  rw [proj_update seen hseen, proj_update exiting hexiting, hofile]
  exact h

theorem SlotsOk.keep (h : SlotsOk s.life s.ofile (fun q => (L q).live) fun q => (L q).child)
    (hlife : u.life = s.life) (hofile : u.ofile = s.ofile) (hlive : l.live = (L p).live)
    (hchild : l.child = (L p).child) :
    SlotsOk u.life u.ofile (fun q => (update L p l q).live)
      fun q => (update L p l q).child := by
  rw [proj_update live hlive, proj_update child hchild, hlife, hofile]
  exact h

theorem KindsOk.keep (h : KindsOk s.ftable s.ofile (fun q => (L q).hand) fun q => (L q).fresh)
    (hftable : u.ftable = s.ftable) (hofile : u.ofile = s.ofile) (hhand : l.hand = (L p).hand)
    (hfresh : l.fresh = (L p).fresh) :
    KindsOk u.ftable u.ofile (fun q => (update L p l q).hand)
      fun q => (update L p l q).fresh := by
  rw [proj_update hand hhand, proj_update fresh hfresh, hftable, hofile]
  exact h

/-! ### Descriptors of the running process -/

theorem ViewsOk.set (h : ViewsOk s.ofile (fun q => (L q).seen) fun q => (L q).exiting)
    (hothers : ∀ q, q ≠ p → u.ofile q = s.ofile q)
    (hseen : ∀ fd f, l.seen fd = some f → u.ofile p fd = some f)
    (hexiting : ∀ i, l.exiting = some i → ∀ fd : Fin nofile, fd.val < i → u.ofile p fd = none) :
    ViewsOk u.ofile (fun q => (update L p l q).seen)
      fun q => (update L p l q).exiting := by
  constructor
  · intro q
    by_cases hq : q = p
    · subst q
      rw [update_self]
      exact hseen
    · rw [update_of_ne hq, hothers q hq]
      exact h.seen_eq q
  · intro q
    by_cases hq : q = p
    · subst q
      rw [update_self]
      exact hexiting
    · rw [update_of_ne hq, hothers q hq]
      exact h.exiting_none q

theorem SlotsOk.set (h : SlotsOk s.life s.ofile (fun q => (L q).live) fun q => (L q).child)
    (hp : s.life p = .live) (hlife : u.life = s.life) (hothers : ∀ q, q ≠ p → u.ofile q = s.ofile q)
    (hlive : l.live = (L p).live) (hchild : l.child = (L p).child) :
    SlotsOk u.life u.ofile (fun q => (update L p l q).live)
      fun q => (update L p l q).child := by
  have hne : ∀ q, s.life q ≠ .live → q ≠ p := by
    rintro q hq rfl
    exact hq hp
  rw [proj_update live hlive, proj_update child hchild, hlife]
  refine ⟨?_, h.live_iff, ?_, h.parent⟩
  · intro q hq
    rw [hothers q (hne q (by rcases hq with hq | hq <;> simp [hq]))]
    exact h.vacant q hq
  · intro q np i hchild
    have hnp := h.embryo q np i hchild
    rw [hothers np (hne np (by simp [hnp.1]))]
    exact hnp

theorem SlotsOk.setLife {life : P → Life} {ofile : P → Fin nofile → Option (Fin nfile)}
    {live live' : P → Bool} {child child' : P → Option (P × ℕ)} {np : P} {k : Life}
    (h : SlotsOk life ofile live child)
    (hvacant : k = .unused ∨ k = .zombie → ∀ fd, ofile np fd = none)
    (hself : live' np = true ↔ k = .live) (hothers : ∀ q, q ≠ np → live' q = live q)
    (hchild : ∀ q m i, child' q = some (m, i) → m ≠ np ∧ child q = some (m, i)) :
    SlotsOk (update life np k) ofile live' child' := by
  refine ⟨?_, ?_, ?_, ?_⟩
  · intro q
    by_cases hq : q = np
    · subst q
      rw [update_self]
      exact hvacant
    · rw [update_of_ne hq]
      exact h.vacant q
  · intro q
    by_cases hq : q = np
    · subst q
      rw [update_self]
      exact hself
    · rw [update_of_ne hq, hothers q hq]
      exact h.live_iff q
  · intro q m i hm
    obtain ⟨hne, hm'⟩ := hchild q m i hm
    rw [update_of_ne hne]
    exact h.embryo q m i hm'
  · intro q r m i j hq hr
    exact h.parent q r m i j (hchild q m i hq).2 (hchild r m j hr).2

theorem own_setFd
    (hown : ∀ f, descriptors (update (s.ofile p) fd g) f + l.hand f =
      descriptors (s.ofile p) f + (L p).hand f) (q : P) (f : Fin nfile) :
    descriptors ((s.setFd p fd g).ofile q) f + (update L p l q).hand f =
      descriptors (s.ofile q) f + (L q).hand f := by
  by_cases hq : q = p
  · subst q
    rw [setFd_self, update_self]
    exact hown f
  · rw [setFd_of_ne hq, update_of_ne hq]

/-! ### A descriptor of a child that is being made -/

section Give

variable {np : P} {fd : Fin nofile} {f : Fin nfile} {i : ℕ}

theorem ViewsOk.give {seen : P → Fin nofile → Option (Fin nfile)} {exiting : P → Option ℕ}
    (h : ViewsOk s.ofile seen exiting) (hfd : s.ofile np fd = none)
    (hexiting : exiting np = none) : ViewsOk (s.setFd np fd g).ofile seen exiting := by
  constructor
  · intro q fd' e hseen
    have hold := h.seen_eq q fd' e hseen
    by_cases hq : q = np
    · subst q
      have hne : fd' ≠ fd := by
        rintro rfl
        rw [hfd] at hold
        cases hold
      rw [setFd_other hne]
      exact hold
    · rw [setFd_of_ne hq]
      exact hold
  · intro q j hj
    have hq : q ≠ np := by
      rintro rfl
      rw [hexiting] at hj
      cases hj
    rw [setFd_of_ne hq]
    exact h.exiting_none q j hj

theorem SlotsOk.give {live : P → Bool} {child : P → Option (P × ℕ)}
    (h : SlotsOk s.life s.ofile live child) (hchild : child p = some (np, i)) (hi : i ≤ fd.val) :
    SlotsOk s.life (s.setFd np fd g).ofile live
      (update child p (some (np, fd.val + 1))) := by
  obtain ⟨hembryo, hnone⟩ := h.embryo p np i hchild
  have hold : ∀ q m j, update child p (some (np, fd.val + 1)) q = some (m, j) →
      (m = np ∧ j = fd.val + 1 ∧ q = p) ∨ (m ≠ np ∧ child q = some (m, j)) := by
    intro q m j hm
    by_cases hq : q = p
    · subst q
      rw [update_self] at hm
      cases hm
      exact Or.inl ⟨rfl, rfl, rfl⟩
    · rw [update_of_ne hq] at hm
      refine Or.inr ⟨?_, hm⟩
      rintro rfl
      exact hq (h.parent q p m j i hm hchild)
  refine ⟨?_, h.live_iff, ?_, ?_⟩
  · intro q hq
    have hne : q ≠ np := by
      rintro rfl
      rw [hembryo] at hq
      simp at hq
    rw [setFd_of_ne hne]
    exact h.vacant q hq
  · intro q m j hm
    rcases hold q m j hm with ⟨rfl, rfl, -⟩ | ⟨hne, hm'⟩
    · refine ⟨hembryo, ?_⟩
      intro fd' hlt
      have hfd : fd' ≠ fd := by
        rintro rfl
        omega
      rw [setFd_other hfd]
      exact hnone fd' (by omega)
    · rw [setFd_of_ne hne]
      exact h.embryo q m j hm'
  · intro q r m j k hq hr
    rcases hold q m j hq with ⟨rfl, -, rfl⟩ | ⟨hne, hq'⟩ <;>
      rcases hold r m k hr with ⟨hm, -, hr'⟩ | ⟨hne', hr'⟩
    · exact hr'.symm
    · exact absurd rfl hne'
    · exact absurd hm hne
    · exact h.parent q r m j k hq' hr'

theorem KindsOk.give {ftable : Fin nfile → OpenFile} {hand : P → Fin nfile → ℤ}
    {fresh : P → Finset (Fin nfile)} {k : ℤ}
    (h : KindsOk ftable s.ofile hand fresh) (hf : f ∉ fresh p) (hnp : fresh np = ∅) :
    KindsOk ftable (s.setFd np fd g).ofile
      (update hand p (update (hand p) f k)) fresh := by
  refine ⟨h.used, ?_, h.filled⟩
  intro q e he
  have hq : q ≠ np := by
    rintro rfl
    rw [hnp] at he
    simp at he
  have hhand : update hand p (update (hand p) f k) q e = hand q e := by
    by_cases hqp : q = p
    · subst q
      have hne : e ≠ f := by
        rintro rfl
        exact hf he
      rw [update_self, update_of_ne hne]
    · rw [update_of_ne hqp]
  rw [setFd_of_ne hq, hhand]
  exact h.fresh_own q e he

end Give

end Pieces

section Operations

variable [Fintype P] [DecidableEq P] {s u : OpenFiles P} {L : P → FileRecord P}
variable {p : P} {l : FileRecord P} {f : Fin nfile} {fd : Fin nofile}

section

variable (h : FilesOk s L)

include h

theorem FilesOk.keep_refs (href : ∀ f, (u.ftable f).ref = (s.ftable f).ref)
    (hofile : u.ofile = s.ofile) (hhand : l.hand = (L p).hand) :
    RefsOk (fun f => (u.ftable f).ref) u.ofile
      fun q => (update L p l q).hand := by
  rw [proj_update hand hhand, hofile, funext href]
  exact h.refs

theorem FilesOk.keep_pipes (hend : ∀ f a b, (u.ftable f).isEnd a b = (s.ftable f).isEnd a b)
    (hpipe : u.pipe = s.pipe) (hpipes : u.pipes = s.pipes) (hfreed : u.freed = s.freed)
    (hends : l.ends = (L p).ends) (hpage : l.page = (L p).page) :
    PipesOk u.ftable u.pipe u.pipes u.freed
      (fun q => (update L p l q).ends)
      fun q => (update L p l q).page := by
  rw [proj_update ends hends, proj_update page hpage, hpipe, hpipes, hfreed]
  refine ⟨?_, h.pipes.pages_eq⟩
  intro a b
  simp only [hend]
  exact h.pipes.ends_eq a b

/-! ### Operations on descriptors -/

theorem FilesOk.learn (hseen : ∀ fd f, l.seen fd = some f → s.ofile p fd = some f)
    (hexiting : ∀ i, l.exiting = some i → ∀ fd : Fin nofile, fd.val < i → s.ofile p fd = none)
    (hl : l = { L p with seen := l.seen, exiting := l.exiting }) : FilesOk s (update L p l) := by
  rw [hl]
  exact ⟨h.keep_refs (fun _ => rfl) rfl rfl, h.views.set (fun _ _ => rfl) hseen hexiting,
    h.slots.keep rfl rfl rfl rfl, h.kinds.keep rfl rfl rfl rfl,
    h.keep_pipes (fun _ _ _ => rfl) rfl rfl rfl rfl rfl⟩

theorem FilesOk.argfd :
    FilesOk s (update L p
      (next (.argfd fd) (s.ofile p fd) (L p))) := by
  cases hfd : s.ofile p fd with
  | none =>
    refine h.learn ?_ ?_ rfl
    · intro fd' f
      exact h.views.look hfd fun _ _ => rfl
    · intro i hi
      exact h.views.passed hfd (fun _ _ => rfl) hi
  | some g =>
    refine h.learn ?_ ?_ rfl
    · intro fd' f
      exact h.views.look hfd fun _ _ => rfl
    · exact h.views.exiting_none p

theorem FilesOk.setFd {g : Option (Fin nfile)}
    (hp : s.life p = .live)
    (hown : ∀ f, descriptors (update (s.ofile p) fd g) f + l.hand f =
      descriptors (s.ofile p) f + (L p).hand f)
    (hseen : ∀ fd' f, l.seen fd' = some f → (s.setFd p fd g).ofile p fd' = some f)
    (hexiting : ∀ i, l.exiting = some i → ∀ fd' : Fin nofile, fd'.val < i →
      (s.setFd p fd g).ofile p fd' = none)
    (hl : l = { L p with
      hand := l.hand
      seen := l.seen
      exiting := l.exiting }) :
    FilesOk (s.setFd p fd g) (update L p l) := by
  have hall := own_setFd (L := L) (p := p) hown
  have hfresh : l.fresh = (L p).fresh := by rw [hl]
  have hlive : l.live = (L p).live := by rw [hl]
  have hchild : l.child = (L p).child := by rw [hl]
  have hends : l.ends = (L p).ends := by rw [hl]
  have hpage : l.page = (L p).page := by rw [hl]
  refine ⟨⟨?_, ?_⟩, ?_, ?_, ⟨h.kinds.used, ?_, ?_⟩, ?_⟩
  · intro f
    simp only [hall]
    exact h.refs.total f
  · intro q f
    simp only [hall]
    exact h.refs.own q f
  · exact h.views.set (fun q hq => setFd_of_ne hq) hseen hexiting
  · exact h.slots.set hp rfl (fun q hq => setFd_of_ne hq) hlive hchild
  · intro q f
    simp only [hall]
    rw [update_proj fresh hfresh q]
    exact h.kinds.fresh_own q f
  · intro f
    simp only [update_proj fresh hfresh]
    exact h.kinds.filled f
  · exact h.keep_pipes (fun _ _ _ => rfl) rfl rfl rfl hends hpage

theorem FilesOk.fdalloc (hp : s.life p = .live)
    (hexiting : (L p).exiting = none) (hfd : s.ofile p fd = none) :
    FilesOk (s.setFd p fd (some f)) (update L p
      (next (.fdalloc f) (some fd) (L p))) := by
  refine h.setFd hp ?_ ?_ ?_ rfl
  · intro e
    have hupdate := descriptors_update (s.ofile p) fd e (some f)
    rw [hfd] at hupdate
    simp only [next, FileRecord.look, addHand,
      Option.some.injEq, reduceCtorEq, if_false] at hupdate ⊢
    by_cases he : e = f
    · subst e
      simp only [if_true, update_self] at hupdate ⊢
      omega
    · simp only [Ne.symm he, if_false, update_of_ne he] at hupdate ⊢
      omega
  · intro fd' f'
    exact h.views.look setFd_same fun _ hne => setFd_other hne
  · intro i hi
    change (L p).exiting = some i at hi
    rw [hexiting] at hi
    cases hi

theorem FilesOk.fdclear (hp : s.life p = .live) (hseen : (L p).seen fd = some f) :
    FilesOk (s.setFd p fd none) (update L p
      (next (.fdclear fd) () (L p))) := by
  have hfd := h.views.seen_eq p fd f hseen
  rw [next_fdclear hseen]
  refine h.setFd hp ?_ ?_ ?_ rfl
  · intro e
    have hupdate := descriptors_update (s.ofile p) fd e none
    rw [hfd] at hupdate
    simp only [FileRecord.look, FileRecord.passed, addHand,
      Option.some.injEq, reduceCtorEq, if_false] at hupdate ⊢
    by_cases he : e = f
    · subst e
      simp only [if_true, update_self] at hupdate ⊢
      omega
    · simp only [Ne.symm he, if_false, update_of_ne he] at hupdate ⊢
      omega
  · intro fd' f'
    exact h.views.look setFd_same fun _ hne => setFd_other hne
  · intro i hi
    exact h.views.passed setFd_same (fun _ hne => setFd_other hne) hi

end

end Operations

end Xv6Kernel
