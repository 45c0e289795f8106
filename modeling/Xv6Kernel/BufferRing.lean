import Xv6Kernel.BufferList

/-!
# The list of buffers in every run

In every interleaving the buffers form one circular list, ordered by the last
time that their reference count went to zero; no block is in two buffers; and the
reference count of a buffer is the number of processes that hold it, wait for it,
or are about to give it up.
-/

namespace Xv6Kernel

open TraceExecution CircularList Function CacheBuf List

variable {P D : Type}

namespace Bcache

def order (s : Bcache P D) : List (Fin nbuf) :=
  frontOrder (List.finRange nbuf).reverse s.released

/-- A reference of a process that does not hold the lock. -/
def refers (b : Fin nbuf) : BcachePc → ℤ
  | .lockWait c | .release c => if c = b then 1 else 0
  | _ => 0

def holders : Option P → ℤ
  | none => 0
  | some _ => 1

structure ListOk [Fintype P] (s : Bcache P D) : Prop where
  ring : Ring s.links s.order
  blocks : ∀ b c, (s.buf b).dev ≠ 0 → (s.buf b).dev = (s.buf c).dev →
    (s.buf b).blockno = (s.buf c).blockno → b = c
  refs : ∀ b, (s.buf b).refcnt = holders (s.owner b) + ∑ p, refers b (s.pc p)

theorem order_perm (s : Bcache P D) : s.order.Perm (finRange nbuf) :=
  (frontOrder_perm (by simp) s.released).trans (reverse_perm _)

theorem mem_order (s : Bcache P D) (b : Fin nbuf) : b ∈ s.order :=
  s.order_perm.mem_iff.mpr (mem_finRange b)

theorem order_length (s : Bcache P D) : s.order.length < nbuf + 1 := by
  rw [s.order_perm.length_eq]
  simp

theorem order_older (s : Bcache P D) : s.order.reverse.Pairwise (Older (· < ·) s.released) := by
  refine frontOrder_older ?_ ?_ (by simp)
  · rw [reverse_reverse]
    exact pairwise_lt_finRange nbuf
  · exact nodup_reverse.mpr (nodup_finRange nbuf)

section Search

variable {s : Bcache P D} {dev blockno : ℕ} {b : Fin nbuf}

section

variable (h : Ring s.links s.order)

include h

theorem findCached_eq (dev blockno : ℕ) :
    s.findCached dev blockno = some (s.order.find? fun b =>
      (s.buf b).dev = dev ∧ (s.buf b).blockno = blockno) :=
  h.search_next s.order_length

theorem findUnused_eq :
    s.findUnused = some (s.order.reverse.find? fun b =>
      (s.buf b).refcnt = 0 ∧ (s.buf b).dirty = false) :=
  h.search_prev s.order_length

theorem findCached_some (hfound : s.findCached dev blockno = some (some b)) :
    (s.buf b).dev = dev ∧ (s.buf b).blockno = blockno := by
  rw [findCached_eq h, Option.some.injEq] at hfound
  simpa using find?_some hfound

theorem findCached_none (hfound : s.findCached dev blockno = some none)
    (c : Fin nbuf) : ¬ ((s.buf c).dev = dev ∧ (s.buf c).blockno = blockno) := by
  rw [findCached_eq h, Option.some.injEq, find?_eq_none] at hfound
  simpa using hfound c (s.mem_order c)

theorem findUnused_some (hunused : s.findUnused = some (some b)) :
    (s.buf b).refcnt = 0 ∧ (s.buf b).dirty = false ∧
      ∀ c, c ≠ b → (s.buf c).refcnt = 0 → (s.buf c).dirty = false →
        Older (· < ·) s.released b c := by
  rw [findUnused_eq h, Option.some.injEq, find?_eq_some_iff_append] at hunused
  obtain ⟨htest, before, after, hsplit, hbefore⟩ := hunused
  have htest' : (s.buf b).refcnt = 0 ∧ (s.buf b).dirty = false := by simpa using htest
  refine ⟨htest'.1, htest'.2, ?_⟩
  intro c hne hrefcnt hclean
  have hmem : c ∈ before ++ b :: after := by
    rw [← hsplit, mem_reverse]
    exact s.mem_order c
  have holder := s.order_older
  rw [hsplit, pairwise_append] at holder
  rcases mem_append.mp hmem with hmem | hmem
  · have hnot := hbefore c hmem
    simp [hrefcnt, hclean] at hnot
  · rcases mem_cons.mp hmem with hmem | hmem
    · exact absurd hmem hne
    · exact rel_of_pairwise_cons holder.2.1 hmem

end

end Search

/-! ## Steps -/

@[simp] theorem holders_none : holders (none : Option P) = 0 := rfl

@[simp] theorem holders_some (p : P) : holders (some p) = 1 := rfl

section Refers

variable (b c : Fin nbuf)

@[simp] theorem refers_idle : refers c .idle = 0 := rfl

@[simp] theorem refers_lockWait : refers c (.lockWait b) = if b = c then 1 else 0 := rfl

@[simp] theorem refers_readTest : refers c (.readTest b) = 0 := rfl

@[simp] theorem refers_sync : refers c (.sync b) = 0 := rfl

@[simp] theorem refers_diskWait : refers c (.diskWait b) = 0 := rfl

@[simp] theorem refers_release : refers c (.release b) = if b = c then 1 else 0 := rfl

theorem refers_nonneg (pc : BcachePc) : 0 ≤ refers c pc := by
  cases pc <;> simp <;> split <;> simp

end Refers

theorem setBuf_field {α : Type} {s : Bcache P D} {b : Fin nbuf} {v : CacheBuf D}
    (field : CacheBuf D → α) (hfield : field v = field (s.buf b)) (c : Fin nbuf) :
    field ((s.setBuf b v).buf c) = field (s.buf c) := by
  by_cases hc : c = b
  · subst c
    simp [setBuf, hfield]
  · simp [setBuf, hc]

theorem unref_fields (s : Bcache P D) (b : Fin nbuf) :
    (s.unref b).buf =
        (s.setBuf b { s.buf b with refcnt := (s.buf b).refcnt - 1 }).buf ∧
      (s.unref b).owner = s.owner ∧ (s.unref b).pc = s.pc := by
  unfold Bcache.unref
  dsimp only
  split <;> exact ⟨rfl, rfl, rfl⟩

section Steps

variable [Fintype P] {s t : Bcache P D}

theorem ListOk.keep (h : ListOk s) (hlinks : t.links = s.links)
    (hreleased : t.released = s.released) (hdev : ∀ c, (t.buf c).dev = (s.buf c).dev)
    (hblockno : ∀ c, (t.buf c).blockno = (s.buf c).blockno)
    (hrefs : ∀ c, (t.buf c).refcnt = holders (t.owner c) + ∑ q, refers c (t.pc q)) : ListOk t := by
  refine ⟨?_, ?_, hrefs⟩
  · rw [hlinks, order, hreleased]
    exact h.ring
  · intro c d
    rw [hdev, hdev, hblockno, hblockno]
    exact h.blocks c d

variable [DecidableEq P] {p : P} {next : BcachePc} {b : Fin nbuf}

theorem ListOk.refs_move (h : ListOk s) (hpc : t.pc = update s.pc p next)
    (hcount : ∀ c, (t.buf c).refcnt + holders (s.owner c) + refers c (s.pc p) =
      (s.buf c).refcnt + holders (t.owner c) + refers c next) (c : Fin nbuf) :
    (t.buf c).refcnt = holders (t.owner c) + ∑ q, refers c (t.pc q) := by
  have hsum := sum_add_of_move (f := fun q => refers c (s.pc q))
    (g := fun q => refers c (t.pc q)) p
    (by
      intro q hq
      simp only [hpc, update_of_ne hq])
  have hrefs := h.refs c
  have hmove := hcount c
  simp only [hpc, update_self] at hsum ⊢
  omega

theorem ListOk.hit (h : ListOk s) (hpc : s.pc p = .idle) :
    ListOk ((s.setBuf b { s.buf b with refcnt := (s.buf b).refcnt + 1 }).setPc p
      (.lockWait b)) := by
  refine h.keep rfl rfl (setBuf_field dev rfl) (setBuf_field blockno rfl) (h.refs_move rfl ?_)
  intro c
  by_cases hc : c = b
  · subst c
    simp [setPc, setBuf, hpc]
    omega
  · simp [setPc, setBuf, hpc, hc, Ne.symm hc]

theorem ListOk.recycle {dev blockno : ℕ} (h : ListOk s) (hpc : s.pc p = .idle)
    (hfound : s.findCached dev blockno = some none) (hunused : s.findUnused = some (some b)) :
    ListOk ((s.setBuf b (recycled dev blockno (s.buf b))).setPc p (.lockWait b)) := by
  have hnone := findCached_none h.ring hfound
  have hrefcnt := (findUnused_some h.ring hunused).1
  refine ⟨h.ring, ?_, h.refs_move rfl ?_⟩
  · intro c d
    by_cases hc : c = b <;> by_cases hd : d = b
    · intro _ _ _
      rw [hc, hd]
    · intro _ hdev hblockno
      simp only [setPc, setBuf, hc, update_self, update_of_ne hd, recycled] at hdev hblockno
      exact absurd ⟨hdev.symm, hblockno.symm⟩ (hnone d)
    · intro _ hdev hblockno
      simp only [setPc, setBuf, hd, update_self, update_of_ne hc, recycled] at hdev hblockno
      exact absurd ⟨hdev, hblockno⟩ (hnone c)
    · simp only [setPc, setBuf, update_of_ne hc, update_of_ne hd]
      exact h.blocks c d
  · intro c
    by_cases hc : c = b
    · subst c
      simp [setPc, setBuf, hpc, hrefcnt, recycled]
      omega
    · simp [setPc, setBuf, hpc, hc, Ne.symm hc]

theorem ListOk.unref (h : ListOk s) (hpc : s.pc p = .release b) :
    ListOk ((s.unref b).setPc p .idle) := by
  obtain ⟨hbuf, howner, hpcs⟩ := unref_fields s b
  have hmove : ((s.unref b).setPc p .idle).pc = update s.pc p .idle := by
    simp only [setPc, hpcs]
  refine ⟨?_, ?_, h.refs_move hmove ?_⟩
  · unfold Bcache.unref
    dsimp only
    split
    · simp only [setPc, order, frontOrder_concat]
      exact h.ring.moveToFront (s.mem_order b)
    · exact h.ring
  · have hdev : ∀ c, ((s.unref b).buf c).dev = (s.buf c).dev := by
      rw [hbuf]
      exact setBuf_field dev rfl
    have hblockno : ∀ c, ((s.unref b).buf c).blockno = (s.buf c).blockno := by
      rw [hbuf]
      exact setBuf_field blockno rfl
    intro c d
    simp only [setPc, hdev, hblockno]
    exact h.blocks c d
  · intro c
    simp only [setPc, hbuf, howner]
    by_cases hc : c = b
    · subst c
      simp [setBuf, hpc]
      omega
    · simp [setBuf, hpc, hc, Ne.symm hc]

theorem ListOk.step {label : BcacheLabel P D} (h : ListOk s)
    (hstep : StepOk s label t) : ListOk t := by
  cases hstep with
  | hit hpc _ => exact h.hit hpc
  | recycle hpc hfound hunused => exact h.recycle hpc hfound hunused
  | @acquiresleep p b hpc hfree =>
    refine h.keep rfl rfl (fun _ => rfl) (fun _ => rfl) (h.refs_move rfl ?_)
    intro c
    by_cases hc : c = b
    · subst c
      simp [setPc, setOwner, hpc, hfree]
    · simp [setPc, setOwner, hpc, hc, Ne.symm hc]
  | @readTest p b hpc =>
    refine h.keep rfl rfl (fun _ => rfl) (fun _ => rfl) (h.refs_move rfl ?_)
    intro c
    rw [hpc]
    split <;> rfl
  | @iderw p b hpc | @wakeup p b hpc =>
    refine h.keep rfl rfl (fun _ => rfl) (fun _ => rfl) (h.refs_move rfl ?_)
    intro c
    rw [hpc]
    rfl
  | modify | logWrite =>
    refine h.keep rfl rfl (setBuf_field dev rfl) (setBuf_field blockno rfl) ?_
    intro c
    exact (setBuf_field refcnt (by rfl) c).trans (h.refs c)
  | @bwrite p b hpc _ =>
    refine h.keep rfl rfl (setBuf_field dev rfl) (setBuf_field blockno rfl) (h.refs_move rfl ?_)
    intro c
    have hrefcnt := setBuf_field (s := s) (b := b)
      (v := { s.buf b with dirty := true }) refcnt rfl c
    change ((s.setBuf b _).buf c).refcnt + _ + _ = _
    rw [hrefcnt, hpc]
    rfl
  | @brelse p b hpc howner =>
    refine h.keep rfl rfl (fun _ => rfl) (fun _ => rfl) (h.refs_move rfl ?_)
    intro c
    by_cases hc : c = b
    · subst c
      simp [setPc, setOwner, hpc, howner]
    · simp [setPc, setOwner, hpc, hc, Ne.symm hc]
  | unref hpc => exact h.unref hpc
  | spurious _ => exact h
  | @served df err done b rest _ =>
    have hserved : ∀ failed (found : D) (v : CacheBuf D),
        (served failed found v).dev = v.dev ∧ (served failed found v).blockno =
          v.blockno ∧ (served failed found v).refcnt = v.refcnt := by
      intro failed found v
      unfold served
      split <;> exact ⟨rfl, rfl, rfl⟩
    refine h.keep rfl rfl (setBuf_field dev (hserved ..).1)
      (setBuf_field blockno (hserved ..).2.1) ?_
    intro c
    exact (setBuf_field refcnt (hserved ..).2.2 c).trans (h.refs c)

omit [DecidableEq P] in
theorem listOk_initial (h : Initial s) : ListOk s := by
  obtain ⟨m, hlinks⟩ := h.links
  refine ⟨?_, ?_, ?_⟩
  · have hring : Ring ⟨update m.next none none, update m.prev none none⟩
        ([] : List (Fin nbuf)) := ring_nil (by simp) (by simp)
    have hfold := hring.foldl_pushFront (nodup_finRange nbuf) (by simp)
    rw [append_nil] at hfold
    rw [hlinks, order, h.released]
    exact hfold
  · intro b c hdev
    exact absurd (h.buf b).1 hdev
  · intro b
    rw [(h.buf b).2.2.1, h.owner b]
    simp [h.pc]

theorem listOk_of_reachable (h : Reachable step Initial s) : ListOk s :=
  h.invariant (fun _ => listOk_initial) fun _ _ _ hok hstep => hok.step (step_ok hstep)

omit [DecidableEq P] in
theorem sum_refers (s : Bcache P D) (b : Fin nbuf) :
    ∑ p, refers b (s.pc p) =
      (Finset.univ.filter fun p => s.pc p = .lockWait b).card +
        (Finset.univ.filter fun p => s.pc p = .release b).card := by
  have hsplit : ∀ pc, refers b pc =
      (if pc = .lockWait b then 1 else 0) + if pc = .release b then 1 else 0 := by
    intro pc
    cases pc <;> simp
  simp only [hsplit, Finset.sum_add_distrib, Finset.sum_boole]

end Steps

end Bcache

section Statement

variable [Fintype P] [DecidableEq P]

open Bcache in
/-- In every interleaving of calls the buffers form one circular list, each block
is in one buffer, references are counted exactly, and the buffer that `bget`
recycles is the one released longest ago; buffers never released come first, in
the order in which `binit` has put them into the list. -/
theorem buffer_list_lru {s : Bcache P D} (hs : Reachable Bcache.step Bcache.Initial s) :
    (∃ l, Ring s.links l ∧ l.Perm (List.finRange nbuf)) ∧
      (∀ b c, b ≠ c → (s.buf b).dev ≠ 0 →
        ((s.buf b).dev, (s.buf b).blockno) ≠ ((s.buf c).dev, (s.buf c).blockno)) ∧
      (∀ b, (s.buf b).refcnt = holders (s.owner b) +
        (Finset.univ.filter fun p => s.pc p = .lockWait b).card +
        (Finset.univ.filter fun p => s.pc p = .release b).card) ∧
      (∀ dev blockno, s.findCached dev blockno ≠ none ∧ s.findUnused ≠ none) ∧
      ∀ p dev blockno t, Bcache.step s (.code p (.bread dev blockno)) = some t →
        (∀ c, ((s.buf c).dev, (s.buf c).blockno) ≠ (dev, blockno)) →
        ∃ b, t.pc p = .lockWait b ∧ t.buf b = recycled dev blockno (s.buf b) ∧
          (s.buf b).refcnt = 0 ∧ (s.buf b).dirty = false ∧
          ∀ c, c ≠ b → (s.buf c).refcnt = 0 → (s.buf c).dirty = false →
            Older (· < ·) s.released b c := by
  have hok := listOk_of_reachable hs
  refine ⟨⟨s.order, hok.ring, s.order_perm⟩, ?_, ?_, ?_, ?_⟩
  · intro b c hne hdev heq
    rw [Prod.mk.injEq] at heq
    exact hne (hok.blocks b c hdev heq.1 heq.2)
  · intro b
    rw [hok.refs b, sum_refers, add_assoc]
  · intro dev blockno
    rw [findCached_eq hok.ring, findUnused_eq hok.ring]
    exact ⟨Option.some_ne_none _, Option.some_ne_none _⟩
  · intro p dev blockno t hstep habsent
    cases step_ok hstep with
    | @hit _ _ _ b _ hfound =>
        obtain ⟨hdev, hblockno⟩ := findCached_some hok.ring hfound
        exact absurd (Prod.ext hdev hblockno) (habsent b)
    | @recycle _ _ _ b _ _ hunused =>
        obtain ⟨hrefcnt, hclean, holder⟩ := findUnused_some hok.ring hunused
        exact ⟨b, Function.update_self .., Function.update_self .., hrefcnt, hclean, holder⟩

end Statement

def bcacheAtBoot : Bcache Unit ℕ where
  links := Bcache.binit ⟨fun _ => none, fun _ => none⟩
  buf := fun _ => ⟨0, 0, 0, false, false, 0⟩
  owner := fun _ => none
  idequeue := []
  havedisk1 := true
  disk := fun _ _ => 7
  pc := fun _ => .idle
  released := []

theorem bcacheAtBoot_initial : Bcache.Initial bcacheAtBoot where
  links := ⟨_, rfl⟩
  buf := fun _ => ⟨rfl, rfl, rfl, rfl, rfl⟩
  owner := fun _ => rfl
  idequeue := rfl
  pc := fun _ => rfl
  released := rfl

def readAndRelease (blockno : ℕ) (b : Fin nbuf) : List (BcacheLabel Unit ℕ) :=
  [.code () (.bread 1 blockno), .code () .acquiresleep, .code () .readTest,
    .code () .iderw, .interrupt false false true, .code () .wakeup,
    .code () (.brelse b), .code () .unref]

/-- The first block goes to the first buffer; the second one does not go there,
though the first buffer is free again. -/
theorem buffer_list_lru_secondBlock :
    ∃ s t : Bcache Unit ℕ, Reachable Bcache.step Bcache.Initial s ∧
      Bcache.step s (.code () (.bread 1 6)) = some t ∧ (s.buf 0).refcnt = 0 ∧
      t.pc () = .lockWait 1 ∧ Older (· < ·) s.released (1 : Fin nbuf) 0 := by
  obtain ⟨s, hexec, htest⟩ : ∃ s, exec Bcache.step bcacheAtBoot (readAndRelease 5 0) =
      some s ∧ (decide ((s.buf 0).refcnt = 0 ∧ (s.buf 0).dirty = false ∧
        ∀ c, ((s.buf c).dev, (s.buf c).blockno) ≠ (1, 6)) &&
      (Bcache.step s (.code () (.bread 1 6))).any fun t =>
        decide (t.pc () = .lockWait 1)) = true :=
    exec_of_any (by decide +kernel)
  rw [Bool.and_eq_true, decide_eq_true_iff, Option.any_eq_true] at htest
  obtain ⟨⟨hrefcnt, hclean, habsent⟩, t, hstep, hpc⟩ := htest
  rw [decide_eq_true_iff] at hpc
  have hreach : Reachable Bcache.step Bcache.Initial s := ⟨_, _, bcacheAtBoot_initial, hexec⟩
  obtain ⟨b, hpc', _, _, _, holder⟩ := (buffer_list_lru hreach).2.2.2.2 () 1 6 t hstep habsent
  obtain rfl : b = 1 := by
    rw [hpc, BcachePc.lockWait.injEq] at hpc'
    exact hpc'.symm
  exact ⟨s, t, hreach, hstep, hrefcnt, hpc, holder 0 (by decide) hrefcnt hclean⟩

end Xv6Kernel
