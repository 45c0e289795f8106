import Xv6Kernel.FileCalls
import Xv6Kernel.StateHoare
import Mathlib.Algebra.Group.Pi.Lemmas

/-!
# File system calls that run alone

What the code of a process does when no other process makes a step.  Between two calls the inode
cache is in order: no inode is locked, the references are those of working directories and open
files, and what the cache has of an inode is what is on the disk.  Inside a call there are some
inodes that it has locked, and some references of its own.
-/

namespace Xv6Kernel

open TraceExecution ThreadPrograms StateHoare Finset FileSystem FsOp

variable {P α β : Type}

def alone [DecidableEq P] (p : P) : FsCode α → EStateM Stop (FileSystem P) α
  | .ret a => pure a
  | .op o next => fun s =>
      match FsOp.run p o s with
      | .ok (r, t) => alone p (next r) t
      | .error stop => .error stop s

section Rules

variable [DecidableEq P] {p : P} {s : FileSystem P} {Q : β → FileSystem P → Prop} {o : FsOp}
variable {E : FileSystem P → Prop}

@[simp] theorem ensures_alone_pure {b : β} :
    Ensures (alone p (pure b)) s Q E ↔ Q b s := Iff.rfl

@[simp] theorem ensures_alone_bind {x : FsCode α} {f : α → FsCode β} :
    Ensures (alone p (x >>= f)) s Q E ↔
      Ensures (alone p x) s (fun a t => Ensures (alone p (f a)) t Q E) E := by
  induction x generalizing s with
  | ret a => rfl
  | op o next ih =>
    change Ensures (alone p (.op o fun r => next r >>= f)) s Q E ↔ _
    unfold Ensures
    simp only [alone]
    cases run p o s with
    | error stop => rfl
    | ok r => exact ih r.1

theorem alone_fsOp_bind (f : o.Resp → FsCode β) :
    alone p (fsOp o >>= f) s =
      match run p o s with
      | .ok (r, t) => alone p (f r) t
      | .error stop => .error stop s := by
  change alone p (.op o f) s = _
  rw [alone]

theorem ensures_fsOp {Q : o.Resp → FileSystem P → Prop} :
    Ensures (alone p (fsOp o)) s Q E ↔
      match run p o s with
      | .ok (r, t) => Q r t
      | .error _ => E s := by
  unfold Ensures
  simp only [fsOp, perform, alone]
  cases run p o s with
  | error stop => rfl
  | ok r => rfl

theorem ensures_op_ok {Q : o.Resp → FileSystem P → Prop} {r : o.Resp} {t : FileSystem P}
    (hrun : run p o s = .ok (r, t)) (hQ : Q r t) : Ensures (alone p (fsOp o)) s Q E := by
  rw [ensures_fsOp, hrun]
  exact hQ

theorem ok_bind (a : α) (f : α → Outcome β) : ((.ok a : Outcome α) >>= f) = f a := rfl

theorem ensures_fsOp_ensure {Q : o.Resp → FileSystem P → Prop} {c : Prop} [Decidable c]
    {msg : String} {r : o.Resp} {t : FileSystem P}
    (hrun : run p o s = (do ensure c msg; return (r, t))) (hstop : ¬ c → E s)
    (hQ : c → Q r t) : Ensures (alone p (fsOp o)) s Q E := by
  rw [ensures_fsOp, hrun]
  by_cases hc : c
  · rw [show ensure c msg = .ok () from if_pos hc]
    exact hQ hc
  · rw [show ensure c msg = .error (.panic msg) from if_neg hc]
    exact hstop hc

theorem ensures_acquiresleep {ip : ISlot} {caller : Caller} {Q : Unit → FileSystem P → Prop}
    (hstop : (s.icache ip).lock ≠ none → E s)
    (hQ : (s.icache ip).lock = none →
      Q () (s.setInode ip fun node => { node with lock := some p })) :
    Ensures (alone p (fsOp (.acquiresleep ip caller))) s Q E := by
  rw [ensures_fsOp, run]
  by_cases hlock : (s.icache ip).lock = none
  · rw [show await ((s.icache ip).lock = none) = .ok () from if_pos hlock]
    exact hQ hlock
  · rw [show await ((s.icache ip).lock = none) = .error .blocked from if_neg hlock]
    exact hstop hlock

end Rules

theorem FileSystem.setInode_twice (s : FileSystem P) (ip : ISlot) (f g : Inode P → Inode P) :
    (s.setInode ip f).setInode ip g = s.setInode ip fun node => g (f node) := by
  simp [setInode]

variable [Fintype P]

def FileSystem.held (s : FileSystem P) (e : ISlot) : ℤ :=
  (Finset.univ.filter fun q => s.cwd q = some e).card +
    (Finset.univ.filter fun f => (s.ftable f).ip = some e).card

/-- The cached fields of an allocated inode are those on the disk. -/
structure Inode.Agrees (node : Inode P) (dip : Dinode) : Prop where
  used : dip.type ≠ .none
  type : node.type = dip.type
  major : node.major = dip.major
  minor : node.minor = dip.minor
  nlink : node.nlink = dip.nlink

/-- Process `p` has locked the inodes in `L`, and has `X` references of its own. -/
structure InOrder (p : P) (L : Finset ISlot) (X : ISlot → ℤ) (s : FileSystem P) : Prop where
  lock : ∀ e, (s.icache e).lock = if e ∈ L then some p else none
  ref : ∀ e, (s.icache e).ref = s.held e + X e
  count : ∀ e, 0 ≤ (s.icache e).ref
  unique : ∀ e e', 0 < (s.icache e).ref → 0 < (s.icache e').ref →
    (s.icache e).inum = (s.icache e').inum → e = e'
  loaded : ∀ e, 0 < (s.icache e).ref → (s.icache e).valid = true →
    (s.icache e).Agrees (s.dinode (s.icache e).inum)
  locked : ∀ e ∈ L, 0 < (s.icache e).ref ∧ (s.icache e).valid = true
  number : ∀ e, 0 < (s.icache e).ref → (s.icache e).inum ≠ 0
  files : ∀ f, (s.ftable f).ref = 0 → (s.ftable f).ip = none

/-- What the calls that only look up inodes leave alone, for a process with `X` references. -/
structure Still (X : ISlot → ℤ) (s t : FileSystem P) : Prop where
  ftable : t.ftable = s.ftable
  cwd : t.cwd = s.cwd
  ofile : t.ofile = s.ofile
  slots : ∀ e, 0 < s.held e + X e → (t.icache e).inum = (s.icache e).inum

section Frames

variable {X : ISlot → ℤ} {s t u : FileSystem P}

theorem Still.held (h : Still X s t) : t.held = s.held := by
  funext e
  rw [FileSystem.held, FileSystem.held, h.cwd, h.ftable]

theorem Still.refl (X : ISlot → ℤ) (s : FileSystem P) : Still X s s :=
  ⟨rfl, rfl, rfl, fun _ _ => rfl⟩

theorem Still.trans (h : Still X s t) (h' : Still X t u) : Still X s u where
  ftable := h'.ftable.trans h.ftable
  cwd := h'.cwd.trans h.cwd
  ofile := h'.ofile.trans h.ofile
  slots := by
    intro e he
    rw [h'.slots e (by rwa [h.held]), h.slots e he]

theorem Still.mono {X' : ISlot → ℤ} (h : Still X s t) (hle : ∀ e, X' e ≤ X e) : Still X' s t :=
  { h with slots := fun e he => h.slots e (by have := hle e; omega) }

end Frames

section Slots

variable {p : P} {L L' : Finset ISlot} {X X' : ISlot → ℤ} {s : FileSystem P} {ip : ISlot}

theorem InOrder.slot (h : InOrder p L X s) {node : Inode P}
    (hinum : (node.inum = (s.icache ip).inum ∧ (0 < node.ref → 0 < (s.icache ip).ref)) ∨
      ∀ e, 0 < (s.icache e).ref → (s.icache e).inum ≠ node.inum)
    (hlock : node.lock = if ip ∈ L' then some p else none) (hL : ∀ e, e ≠ ip → (e ∈ L' ↔ e ∈ L))
    (href : node.ref = s.held ip + X' ip) (hX : ∀ e, e ≠ ip → X' e = X e) (hcount : 0 ≤ node.ref)
    (hloaded : 0 < node.ref → node.valid = true → node.Agrees (s.dinode node.inum))
    (hlocked : ip ∈ L' → 0 < node.ref ∧ node.valid = true)
    (hnumber : 0 < node.ref → node.inum ≠ 0) : InOrder p L' X' (s.setInode ip fun _ => node) := by
  have hself : (s.setInode ip fun _ => node).icache ip = node := by simp
  have hother : ∀ e, e ≠ ip → (s.setInode ip fun _ => node).icache e = s.icache e :=
    fun e he => setInode_icache_of_ne s _ he
  have hheld : (s.setInode ip fun _ => node).held = s.held := rfl
  have hdistinct : ∀ e, e ≠ ip → 0 < node.ref → 0 < (s.icache e).ref →
      (s.icache e).inum ≠ node.inum := by
    intro e he hpos hpos'
    rcases hinum with ⟨hsame, hold⟩ | hnew
    · intro heq
      exact he (h.unique e ip hpos' (hold hpos) (heq.trans hsame))
    · exact hnew e hpos'
  constructor
  case lock =>
    intro e
    by_cases he : e = ip
    · rw [he, hself, hlock]
    · rw [hother e he, h.lock e]
      simp only [hL e he]
  case ref =>
    intro e
    by_cases he : e = ip
    · rw [he, hself, hheld, href]
    · rw [hother e he, h.ref e, hheld, hX e he]
  case count =>
    intro e
    by_cases he : e = ip
    · rw [he, hself]
      exact hcount
    · rw [hother e he]
      exact h.count e
  case unique =>
    intro e e'
    by_cases he : e = ip
    · by_cases he' : e' = ip
      · intros
        rw [he, he']
      · rw [he, hself, hother e' he']
        exact fun hpos hpos' heq => absurd heq.symm (hdistinct e' he' hpos hpos')
    · by_cases he' : e' = ip
      · rw [he', hself, hother e he]
        exact fun hpos hpos' heq => absurd heq (hdistinct e he hpos' hpos)
      · rw [hother e he, hother e' he']
        exact h.unique e e'
  case loaded =>
    intro e
    by_cases he : e = ip
    · rw [he, hself]
      exact hloaded
    · rw [hother e he]
      exact h.loaded e
  case locked =>
    intro e heL
    by_cases he : e = ip
    · rw [he, hself]
      exact hlocked (he ▸ heL)
    · rw [hother e he]
      exact h.locked e ((hL e he).mp heL)
  case number =>
    intro e
    by_cases he : e = ip
    · rw [he, hself]
      exact hnumber
    · rw [hother e he]
      exact h.number e
  case files => exact h.files

end Slots

theorem InOrder.setDinode {p : P} {L : Finset ISlot} {X : ISlot → ℤ} {s : FileSystem P} {i : ℕ}
    (h : InOrder p L X s) (f : Dinode → Dinode)
    (hi : ∀ e, 0 < (s.icache e).ref → (s.icache e).valid = true → (s.icache e).inum ≠ i) :
    InOrder p L X (s.setDinode i f) :=
  { h with
    loaded := by
      intro e hpos hvalid
      rw [setDinode_icache, setDinode_of_ne s f (hi e hpos hvalid)]
      exact h.loaded e hpos hvalid }

/-! ## Operations on one inode -/

section Operations

variable {p : P} {L : Finset ISlot} {X : ISlot → ℤ} {s : FileSystem P} {ip : ISlot}
  {Q : Unit → FileSystem P → Prop}

/-- One reference to slot `ip`. -/
abbrev one (ip : ISlot) : ISlot → ℤ := Pi.single ip 1

theorem le_add_one (X : ISlot → ℤ) (ip e : ISlot) : X e ≤ (X + one ip) e := by
  by_cases he : e = ip
  · simp [he]
  · simp [he]

def refTo (ip : Option ISlot) : ISlot → ℤ := ip.elim 0 one

@[simp] theorem refTo_none : refTo none = 0 := rfl

@[simp] theorem refTo_some (ip : ISlot) : refTo (some ip) = one ip := rfl

theorem FileSystem.held_nonneg (s : FileSystem P) (e : ISlot) : 0 ≤ s.held e := by
  unfold FileSystem.held
  omega

theorem FileSystem.held_add (s : FileSystem P) {X : ISlot → ℤ} (hX : ∀ e, 0 ≤ X e) (e : ISlot) :
    0 ≤ s.held e + X e := add_nonneg (s.held_nonneg e) (hX e)

def FileSystem.read (s : FileSystem P) (ip : ISlot) : Inode P :=
  if (s.icache ip).valid then s.icache ip
  else
    let dip := s.dinode (s.icache ip).inum
    { s.icache ip with
      valid := true
      type := dip.type
      major := dip.major
      minor := dip.minor
      nlink := dip.nlink }

theorem InOrder.read (h : InOrder p L X s) (hpos : 0 < (s.icache ip).ref)
    (hused : (s.dinode (s.icache ip).inum).type ≠ .none) :
    (s.read ip).inum = (s.icache ip).inum ∧ (s.read ip).ref = (s.icache ip).ref ∧
      (s.read ip).valid = true ∧ (s.read ip).Agrees (s.dinode (s.icache ip).inum) := by
  unfold FileSystem.read
  split
  next hvalid => exact ⟨rfl, rfl, hvalid, h.loaded ip hpos hvalid⟩
  next => exact ⟨rfl, rfl, rfl, ⟨hused, rfl, rfl, rfl, rfl⟩⟩

theorem still_slot (X : ISlot → ℤ) (s : FileSystem P) {ip : ISlot} {node : Inode P}
    (hinum : 0 < s.held ip + X ip → node.inum = (s.icache ip).inum) :
    Still X s (s.setInode ip fun _ => node) := by
  refine ⟨rfl, rfl, rfl, fun e he => ?_⟩
  by_cases hsame : e = ip
  · subst hsame
    rw [setInode_icache_self]
    exact hinum he
  · rw [setInode_icache_of_ne s _ hsame]

theorem InOrder.addRef (h : InOrder p L X s) (hpos : 0 < (s.icache ip).ref) :
    InOrder p L (X + one ip) (s.setInode ip fun node => { node with ref := node.ref + 1 }) := by
  refine h.slot (.inl ⟨rfl, fun _ => hpos⟩) (h.lock ip) (fun _ _ => Iff.rfl) ?_ ?_ ?_ ?_ ?_ ?_
  · simp only [Pi.add_apply, Pi.single_eq_same, h.ref ip]
    ring
  · intro e he
    simp [he]
  · simp only
    omega
  · intro _ hvalid
    have hagrees := h.loaded ip hpos hvalid
    exact ⟨hagrees.used, hagrees.type, hagrees.major, hagrees.minor, hagrees.nlink⟩
  · intro hip
    have := h.locked ip hip
    exact ⟨by simp only; omega, this.2⟩
  · exact fun _ => h.number ip hpos

/-- The numbers of the inodes in use, if `X` are the references of the process that runs. -/
def FileSystem.numbers (s : FileSystem P) (X : ISlot → ℤ) : Finset ℕ :=
  (Finset.univ.filter fun e => 0 < s.held e + X e).image fun e => (s.icache e).inum

theorem InOrder.mem_numbers {j : ℕ} (h : InOrder p L X s) :
    j ∈ s.numbers X ↔ ∃ e, 0 < (s.icache e).ref ∧ (s.icache e).inum = j := by
  simp only [FileSystem.numbers, mem_image, mem_filter, mem_univ, true_and, h.ref]

theorem InOrder.full (h : InOrder p L X s) :
    ninode ≤ (s.numbers X).card ↔ ∀ e, 0 < (s.icache e).ref := by
  have hcard : (s.numbers X).card =
      (univ.filter fun e => 0 < s.held e + X e).card := by
    refine card_image_of_injOn fun e he e' he' heq => ?_
    simp only [coe_filter, mem_univ, true_and, Set.mem_ofPred_eq, ← h.ref] at he he'
    exact h.unique e e' he he' heq
  have hall := card_filter_eq_iff (s := univ) (p := fun e => 0 < s.held e + X e)
  have hle := card_filter_le (univ : Finset ISlot) fun e => 0 < s.held e + X e
  simp only [card_univ, Fintype.card_fin, mem_univ, forall_const, ← h.ref] at hall hle
  simp only [hcard, ← h.ref, ← hall]
  omega

theorem Still.numbers {t : FileSystem P} (h : Still X s t) : t.numbers X = s.numbers X := by
  unfold FileSystem.numbers
  rw [h.held]
  refine image_congr fun e he => ?_
  exact h.slots e (by simpa using he)

theorem FileSystem.numbers_add (s : FileSystem P) {X : ISlot → ℤ} {e : ISlot}
    (hX : 0 ≤ s.held e + X e) : s.numbers (X + one e) = insert (s.icache e).inum (s.numbers X) := by
  ext j
  simp only [FileSystem.numbers, mem_image, mem_filter, mem_univ, true_and,
    mem_insert, Pi.add_apply]
  constructor
  · rintro ⟨e', hpos, rfl⟩
    by_cases he : e' = e
    · exact .inl (he ▸ rfl)
    · exact .inr ⟨e', by simpa [he] using hpos, rfl⟩
  · rintro (rfl | ⟨e', hpos, rfl⟩)
    · exact ⟨e, by simp only [Pi.single_eq_same]; omega, rfl⟩
    · refine ⟨e', ?_, rfl⟩
      by_cases he : e' = e
      · simp only [he, Pi.single_eq_same] at hpos ⊢
        omega
      · simpa [he] using hpos

theorem InOrder.ref_eq_one (h : InOrder p L (X + one ip) s) (hX : 0 ≤ s.held ip + X ip) :
    (s.icache ip).ref = 1 ↔ (s.icache ip).inum ∉ s.numbers X := by
  have href := h.ref ip
  simp only [Pi.add_apply, Pi.single_eq_same] at href
  simp only [FileSystem.numbers, mem_image, mem_filter, mem_univ, true_and]
  constructor
  · rintro hone ⟨e, hpos, hinum⟩
    have hsame : e = ip := by
      refine h.unique e ip ?_ (by omega) hinum
      have hle := le_add_one X ip e
      rw [h.ref e]
      omega
    subst hsame
    omega
  · intro hout
    by_contra hmore
    exact hout ⟨ip, by omega, rfl⟩

variable [DecidableEq P] {E : Prop}

theorem ensures_ilock (h : InOrder p L X s) (hpos : 0 < (s.icache ip).ref)
    (hblocked : ip ∈ L → E)
    (hfree : (s.dinode (s.icache ip).inum).type = .none → E)
    (hQ : ∀ t, InOrder p (insert ip L) X t → Still X s t → t.dinode = s.dinode →
      (s.dinode (s.icache ip).inum).type ≠ .none → Q () t) :
    Ensures (alone p (ilock ip)) s Q fun _ => E := by
  simp only [ilock, ensures_alone_bind, ensures_alone_pure]
  refine ensures_fsOp_ensure (r := ()) (t := s) rfl (fun hlow => absurd hpos (by omega)) fun _ =>
    ensures_acquiresleep ?_ fun hlock => ?_
  · intro hlock
    rw [h.lock] at hlock
    exact hblocked (by simpa using hlock)
  · rw [ensures_fsOp]
    by_cases hused : (s.dinode (s.icache ip).inum).type = .none
    · have hvalid : (s.icache ip).valid = false := by
        by_contra hvalid
        exact (h.loaded ip hpos (by simpa using hvalid)).used hused
      simp only [run, setInode_icache_self, hvalid, setInode_dinode, Bool.false_eq_true, if_false]
      rw [show ensure _ "ilock: no type" = _ from if_neg (not_not.mpr hused)]
      exact hfree hused
    · obtain ⟨hinum, href, hvalid, hagrees⟩ := h.read hpos hused
      have hrun : run p (.load ip) (s.setInode ip fun node => { node with lock := some p }) =
          .ok ((s.read ip).type, s.setInode ip fun _ => { s.read ip with lock := some p }) := by
        unfold FileSystem.read
        cases hcached : (s.icache ip).valid with
        | true =>
          simp only [run, setInode_icache_self, hcached, if_true]
          simp only [setInode, hcached]
          rfl
        | false =>
          simp only [run, setInode_icache_self, hcached,
            setInode_dinode, Bool.false_eq_true, if_false]
          rw [show ensure _ "ilock: no type" = _ from if_pos hused, ok_bind]
          rw [setInode_twice]
          rfl
      rw [hrun]
      refine hQ _ ?_ (still_slot X s fun _ => hinum) rfl hused
      refine h.slot (.inl ⟨hinum, fun _ => hpos⟩) ?_ ?_ ?_ (fun _ _ => rfl) ?_ ?_ ?_ ?_
      · simp
      · intro e he
        simp [he]
      · exact href.trans (h.ref ip)
      · exact (h.count ip).trans_eq href.symm
      · intro _ _
        exact hinum ▸ ⟨hagrees.used, hagrees.type, hagrees.major, hagrees.minor, hagrees.nlink⟩
      · exact fun _ => ⟨href.symm ▸ hpos, hvalid⟩
      · exact fun _ => hinum.symm ▸ h.number ip hpos

theorem ensures_iunlock (h : InOrder p L X s) (hip : ip ∈ L)
    (hQ : ∀ t, InOrder p (L.erase ip) X t → Still X s t → t.dinode = s.dinode →
      (t.icache ip).valid = true → Q () t) :
    Ensures (alone p (iunlock ip)) s Q fun _ => E := by
  obtain ⟨hpos, hvalid⟩ := h.locked ip hip
  simp only [iunlock, ensures_alone_bind, ensures_alone_pure]
  refine ensures_fsOp_ensure (r := ()) (t := s) rfl ?_ fun _ => ?_
  · intro hlow
    rw [h.lock, if_pos hip] at hlow
    simp only [reduceCtorEq, false_or, not_not] at hlow
    omega
  · refine hQ _ ?_ (still_slot X s fun _ => rfl) rfl (by simpa using hvalid)
    refine h.slot (.inl ⟨rfl, fun _ => hpos⟩) ?_ ?_ (h.ref ip) (fun _ _ => rfl) (h.count ip)
      ?_ ?_ (h.number ip)
    · simp
    · intro e he
      simp [he]
    · intro _ _
      have hagrees := h.loaded ip hpos hvalid
      exact ⟨hagrees.used, hagrees.type, hagrees.major, hagrees.minor, hagrees.nlink⟩
    · simp

/-- The inodes on the disk after `iput` of inode `i`, with references to the inodes in `R` left. -/
def leave (R : Finset ℕ) (d : ℕ → Dinode) (i : ℕ) : ℕ → Dinode :=
  if (d i).nlink = 0 ∧ i ∉ R then
    Function.update d i { d i with type := .none, entries := [] }
  else d

theorem ensures_iput (h : InOrder p L (X + one ip) s) (hX : 0 ≤ s.held ip + X ip)
    (hblocked : ip ∈ L → E)
    (hQ : ∀ t, InOrder p L X t → Still X s t →
      (t.dinode = if (s.icache ip).valid then leave (s.numbers X) s.dinode (s.icache ip).inum
        else s.dinode) → ip ∉ L → Q () t) :
    Ensures (alone p (iput ip)) s Q fun _ => E := by
  have href := h.ref ip
  simp only [Pi.add_apply, Pi.single_eq_same] at href
  have hpos : 0 < (s.icache ip).ref := by omega
  simp only [iput, ensures_alone_bind]
  refine ensures_acquiresleep (fun hlock => ?_) fun hlock => ?_
  · rw [h.lock] at hlock
    exact hblocked (by simpa using hlock)
  have hL : ip ∉ L := by
    intro hip
    simp [h.lock, hip] at hlock
  have hone := h.ref_eq_one hX
  -- Without the last reference to an unlinked inode only the count changes.
  have hdrop : ¬ ((s.icache ip).valid ∧ (s.icache ip).nlink = 0 ∧ (s.icache ip).ref = 1) →
      Ensures (alone p (dropRef ip)) (s.setInode ip fun node => { node with lock := some p }) Q
        fun _ => E := by
    intro hkeep
    simp only [dropRef, ensures_alone_bind, ensures_alone_pure]
    refine ensures_op_ok rfl (ensures_op_ok rfl ?_)
    rw [setInode_twice, setInode_twice]
    refine hQ _ ?_ (still_slot _ s fun _ => rfl) ?_ hL
    · refine h.slot (.inl ⟨rfl, fun _ => hpos⟩) ?_ (fun _ _ => Iff.rfl) ?_ ?_ ?_ ?_ ?_ ?_
      · simp [hL]
      · simp only
        omega
      · intro e he
        simp [he]
      · simp only
        omega
      · intro _ hvalid
        have hagrees := h.loaded ip hpos hvalid
        exact ⟨hagrees.used, hagrees.type, hagrees.major, hagrees.minor, hagrees.nlink⟩
      · exact fun hip => absurd hip hL
      · exact fun _ => h.number ip hpos
    · split_ifs with hvalid
      · refine (if_neg ?_).symm
        rw [← (h.loaded ip hpos hvalid).nlink, ← hone]
        exact fun hlast => hkeep ⟨hvalid, hlast⟩
      · rfl
  refine ensures_op_ok rfl ?_
  rw [setInode_icache_self]
  split_ifs with hunlinked
  · rw [ensures_alone_bind]
    refine ensures_op_ok rfl ?_
    rw [setInode_icache_self]
    split_ifs with hlast
    · obtain ⟨hvalid, hnlink⟩ : (s.icache ip).valid ∧ (s.icache ip).nlink = 0 := hunlinked
      change (s.icache ip).ref = 1 at hlast
      have hagrees := h.loaded ip hpos hvalid
      simp only [dropRef, ensures_alone_bind, ensures_alone_pure]
      refine ensures_op_ok rfl (ensures_op_ok rfl (ensures_op_ok rfl ?_))
      let node : Inode P :=
        { s.icache ip with type := .none, valid := false, lock := none, ref := 0 }
      have hslot : InOrder p L X (s.setInode ip fun _ => node) := by
        refine h.slot (.inl ⟨rfl, fun _ => hpos⟩) ?_ (fun _ _ => Iff.rfl) ?_ ?_ le_rfl ?_ ?_ ?_
        · simp [node, hL]
        · simp only [node]
          omega
        · intro e he
          simp [he]
        · exact fun hzero => absurd hzero (lt_irrefl _)
        · exact fun hip => absurd hip hL
        · exact fun hzero => absurd hzero (lt_irrefl _)
      have hgone := hslot.setDinode (i := (s.icache ip).inum)
        (fun dip => { dip with type := .none, entries := [] }) <| by
          intro e he _ heq
          by_cases hsame : e = ip
          · simp [hsame, node] at he
          · rw [setInode_icache_of_ne s _ hsame] at he heq
            exact hsame (h.unique e ip he hpos heq)
      have hstill : Still X s (s.setInode ip fun _ => node) := still_slot _ s fun _ => rfl
      refine (congrArg (Q ()) ?_).mp (hQ _ hgone ⟨rfl, rfl, rfl, hstill.slots⟩ ?_ hL)
      · simp only [setDinode, setInode, iupdate, Function.update_self, Function.update_idem, node,
          hlast, hagrees.major, hagrees.minor, hagrees.nlink]
        rfl
      · rw [if_pos hvalid]
        exact (if_pos ⟨hagrees.nlink ▸ hnlink, hone.mp hlast⟩).symm
    · exact hdrop fun hall => hlast hall.2.2
  · exact hdrop fun hall => hunlinked ⟨hall.1, hall.2.1⟩

theorem ensures_iunlockput (h : InOrder p L (X + one ip) s) (hip : ip ∈ L)
    (hX : 0 ≤ s.held ip + X ip)
    (hQ : ∀ t, InOrder p (L.erase ip) X t → Still X s t →
      t.dinode = leave (s.numbers X) s.dinode (s.icache ip).inum → Q () t) :
    Ensures (alone p (iunlockput ip)) s Q fun _ => E := by
  simp only [iunlockput, ensures_alone_bind]
  refine ensures_iunlock h hip fun t hcached hstill hdinode hvalid => ?_
  have hstill' : Still X s t := hstill.mono (le_add_one X ip)
  refine ensures_iput hcached (by rwa [hstill.held]) (by simp) fun u hcached' hu hdinode' _ => ?_
  refine hQ u hcached' (hstill'.trans hu) ?_
  rw [hdinode', if_pos hvalid, hstill'.numbers, hdinode, hstill.slots ip]
  simp only [Pi.add_apply, Pi.single_eq_same]
  omega

theorem ensures_idup (h : InOrder p L X s) (hpos : 0 < (s.icache ip).ref)
    {Q : ISlot → FileSystem P → Prop}
    (hQ : ∀ t, InOrder p L (X + one ip) t → Still X s t → t.dinode = s.dinode → Q ip t) :
    Ensures (alone p (idup ip)) s Q fun _ => E := by
  simp only [idup, ensures_alone_bind, ensures_alone_pure]
  refine ensures_op_ok rfl (hQ _ ?_ (still_slot X s fun _ => rfl) rfl)
  exact h.addRef hpos

theorem ensures_iget {j : ℕ} (h : InOrder p L X s) (hj : j ≠ 0) {Q : ISlot → FileSystem P → Prop}
    (hfull : j ∉ s.numbers X → ninode ≤ (s.numbers X).card → E)
    (hQ : ∀ e t, InOrder p L (X + one e) t → Still X s t → t.dinode = s.dinode →
      (t.icache e).inum = j → (j ∈ s.numbers X ∨ (s.numbers X).card < ninode) →
      (j ∉ s.numbers X → (t.icache e).valid = false) → Q e t) :
    Ensures (alone p (iget j)) s Q fun _ => E := by
  rw [iget, ensures_fsOp, run]
  cases hcached : s.cachedSlot j with
  | some e =>
    have hfound := List.find?_some hcached
    simp only [decide_eq_true_eq] at hfound
    have hmem : j ∈ s.numbers X := h.mem_numbers.mpr ⟨e, hfound⟩
    refine hQ e _ (h.addRef hfound.1) (still_slot X s fun _ => rfl) rfl ?_ (.inl hmem)
      fun hout => absurd hmem hout
    simp [hfound.2]
  | none =>
    have hout : ∀ e, 0 < (s.icache e).ref → (s.icache e).inum ≠ j := by
      intro e hpos
      have hnot := List.find?_eq_none.mp hcached e (List.mem_finRange e)
      simp only [decide_eq_true_eq, not_and] at hnot
      exact hnot hpos
    cases hempty : s.emptySlot with
    | some e =>
      have hzero : (s.icache e).ref = 0 := by simpa using List.find?_some hempty
      have href := h.ref e
      have hL : e ∉ L := fun heL => absurd (h.locked e heL).1 (by omega)
      refine hQ e _ ?_ (still_slot X s fun hheld => absurd hheld (by omega)) rfl ?_ (.inr ?_)
        (fun _ => by simp)
      · refine h.slot (.inr hout) ?_ (fun _ _ => Iff.rfl) ?_ ?_ ?_ ?_ ?_ ?_
        · simpa only [hL, if_false] using (h.lock e).trans (if_neg hL)
        · simp only [Pi.add_apply, Pi.single_eq_same]
          omega
        · intro e' he
          simp [he]
        · exact Int.one_nonneg
        · exact fun _ hvalid => absurd hvalid (by simp)
        · exact fun heL => absurd heL hL
        · exact fun _ => hj
      · simp
      · by_contra hfull
        exact absurd hzero (by have := h.full.mp (by omega) e; omega)
    | none =>
      refine hfull ?_ (h.full.mpr fun e => ?_)
      · rw [h.mem_numbers]
        rintro ⟨e, hpos, hinum⟩
        exact hout e hpos hinum
      · have hnot := List.find?_eq_none.mp hempty e (List.mem_finRange e)
        simp only [decide_eq_true_eq] at hnot
        have := h.count e
        omega

end Operations

def calls [DecidableEq P] (history : List (P × Syscall)) : EStateM Stop (FileSystem P) Unit :=
  history.forM fun call => alone call.1 call.2.code

def bootFs (P : Type) [Fintype P] : FileSystem P where
  dinode := fun i =>
    if i = rootino then ⟨.dir, 0, 0, 1, [⟨rootino, dot⟩, ⟨rootino, dotdot⟩]⟩
    else ⟨.none, 0, 0, 0, []⟩
  icache := fun e =>
    if e = 0 then ⟨rootino, Fintype.card P, none, false, .none, 0, 0, 0⟩
    else ⟨0, 0, none, false, .none, 0, 0, 0⟩
  ftable := fun _ => ⟨0, none, false, false⟩
  cwd := fun _ => some 0
  ofile := fun _ _ => none

theorem bootFs_inOrder (p : P) : InOrder p ∅ 0 (bootFs P) := by
  have hslot : ∀ e, e ≠ 0 → (bootFs P).icache e = ⟨0, 0, none, false, .none, 0, 0, 0⟩ :=
    fun e he => if_neg he
  have hused : ∀ e, 0 < ((bootFs P).icache e).ref → e = 0 := by
    intro e hpos
    by_contra he
    simp [hslot e he] at hpos
  have hvalid : ∀ e, ((bootFs P).icache e).valid = false := by
    intro e
    by_cases he : e = 0
    · rw [he]
      rfl
    · rw [hslot e he]
  have href : ∀ e, ((bootFs P).icache e).ref = (bootFs P).held e := by
    intro e
    by_cases he : e = 0
    · simp [he, FileSystem.held, bootFs, filter_true_of_mem]
    · simp [he, FileSystem.held, bootFs, Ne.symm he]
  constructor
  · intro e
    by_cases he : e = 0
    · rw [he]
      rfl
    · rw [hslot e he]
      rfl
  · intro e
    rw [href, Pi.zero_apply, add_zero]
  · intro e
    rw [href]
    unfold FileSystem.held
    omega
  · intro e e' hpos hpos' _
    rw [hused e hpos, hused e' hpos']
  · intro e _ hload
    rw [hvalid] at hload
    cases hload
  · simp
  · intro e hpos
    rw [hused e hpos]
    exact Nat.one_ne_zero
  · exact fun _ _ => rfl

end Xv6Kernel
