import Xv6Kernel.BufferRing

/-!
# What `B_VALID` says about a buffer

`ideintr` sets `B_VALID` in the buffer of every command that has ended, also when
the drive has reported an error for a read and nothing was transferred.  As long
as no read is reported as an error, the data of a buffer with `B_VALID` were read
from its block, and changed only by processes that held the buffer.
-/

namespace Xv6Kernel

open TraceExecution Function

variable {P D : Type}

namespace Bcache

/-- A process holds the lock of a buffer that it may still have to read, or waits
for the disk with it. -/
def reading (b : Fin nbuf) : BcachePc → Prop
  | .readTest c | .sync c | .diskWait c => c = b
  | _ => False

def changeOf (b : Fin nbuf) : BcacheLabel P D → Option (D → D)
  | .code _ (.modify c f) => if c = b then some f else none
  | _ => none

def HasFlag (s : Bcache P D) (b : Fin nbuf) : Prop :=
  (s.buf b).valid = true ∨ (s.buf b).dirty = true

def NoReadError (s : Bcache P D) : BcacheLabel P D → Prop
  | .interrupt df err _ =>
      (df || err) = true → ∀ b, s.idequeue.head? = some b → (s.buf b).dirty = true
  | .code _ _ => True

variable [DecidableEq P]

/-- At some point of the run `b` was the buffer of the block that it is for now, has been it ever
since, and its data are what the disk had there, with the changes made after that point. -/
def FromDisk (start : Bcache P D) (trace : List (BcacheLabel P D)) (s : Bcache P D)
    (b : Fin nbuf) : Prop :=
  ∃ before after r, trace = before ++ after ∧ exec step start before = some r ∧
    StepsMeet step (fun m _ => (m.buf b).dev = (s.buf b).dev ∧
      (m.buf b).blockno = (s.buf b).blockno) r after ∧
    (s.buf b).data = (after.filterMap (changeOf b)).foldl (fun d f => f d)
      (r.disk ((s.buf b).dev % 2) (s.buf b).blockno)

structure Truthful (start : Bcache P D) (trace : List (BcacheLabel P D)) (s : Bcache P D) :
    Prop where
  reached : exec step start trace = some s
  data : ∀ b, s.HasFlag b → FromDisk start trace s b
  held : ∀ b p, s.owner b = some p → ¬ reading b (s.pc p) → (s.buf b).valid = true

theorem truthful_initial {s : Bcache P D} (h : Initial s) : Truthful s [] s where
  reached := rfl
  data := by
    intro b hflags
    obtain ⟨_, _, _, hvalid, hdirty⟩ := h.buf b
    rw [HasFlag, hvalid, hdirty] at hflags
    simp at hflags
  held := by
    intro b p howner
    rw [h.owner b] at howner
    cases howner

section Steps

variable {start s t : Bcache P D} {b : Fin nbuf} {trace : List (BcacheLabel P D)}
  {label : BcacheLabel P D}

omit [DecidableEq P] in
theorem ListOk.unlocked [Fintype P] (h : ListOk s) (hrefcnt : (s.buf b).refcnt = 0) :
    s.owner b = none := by
  have hrefs := h.refs b
  have hsum : 0 ≤ ∑ p, refers b (s.pc p) := Finset.sum_nonneg fun p _ => refers_nonneg b (s.pc p)
  cases howner : s.owner b with
  | none => rfl
  | some p =>
    rw [howner, holders_some] at hrefs
    omega

/-- What a step that reads nothing from the disk does to a buffer. -/
structure Kept (label : BcacheLabel P D) (b : Fin nbuf) (v v' : CacheBuf D) : Prop where
  dev : v'.dev = v.dev
  blockno : v'.blockno = v.blockno
  data : v'.data = ((changeOf b label).elim id id) v.data

theorem FromDisk.kept (h : FromDisk start trace s b) (hreached : exec step start trace = some s)
    (hkept : Kept label b (s.buf b) (t.buf b)) : FromDisk start (trace ++ [label]) t b := by
  obtain ⟨before, after, r, rfl, hbefore, hmeet, hdata⟩ := h
  rw [exec_append, hbefore, Option.bind_some] at hreached
  refine ⟨before, after ++ [label], r, List.append_assoc .., hbefore, ?_, ?_⟩
  · rw [hkept.dev, hkept.blockno]
    exact hmeet.snoc hreached ⟨rfl, rfl⟩
  · rw [hkept.data, hkept.dev, hkept.blockno, hdata, List.filterMap_append, List.foldl_append]
    cases hchange : changeOf b label <;> simp [hchange]

theorem Truthful.kept (h : Truthful start trace s)
    (hkept : ∀ b, t.HasFlag b → s.HasFlag b ∧ Kept label b (s.buf b) (t.buf b)) (b : Fin nbuf)
    (hflag : t.HasFlag b) : FromDisk start (trace ++ [label]) t b :=
  (h.data b (hkept b hflag).1).kept h.reached (hkept b hflag).2

omit [DecidableEq P] in
theorem kept_setBuf {v : CacheBuf D} (hother : ∀ c, c ≠ b → changeOf c label = none)
    (hbuf : t.buf = update s.buf b v)
    (hv : v.valid = true ∨ v.dirty = true → s.HasFlag b ∧ Kept label b (s.buf b) v) (c : Fin nbuf)
    (hflag : t.HasFlag c) : s.HasFlag c ∧ Kept label c (s.buf c) (t.buf c) := by
  rw [HasFlag, hbuf] at hflag
  rw [hbuf]
  by_cases hc : c = b
  · subst c
    rw [update_self] at hflag ⊢
    exact hv hflag
  · rw [update_of_ne hc] at hflag ⊢
    exact ⟨hflag, rfl, rfl, by rw [hother c hc]; rfl⟩

omit [DecidableEq P] in
theorem valid_setBuf {v : CacheBuf D} (hv : (s.buf b).valid = true → v.valid = true) (c : Fin nbuf)
    (hvalid : (s.buf c).valid = true) : ((s.setBuf b v).buf c).valid = true := by
  by_cases hc : c = b
  · subst c
    simpa [setBuf] using hv hvalid
  · simpa [setBuf, hc] using hvalid

variable {p : P} {next : BcachePc}

theorem Truthful.held_move (h : Truthful start trace s) (howner : t.owner = s.owner)
    (hpc : t.pc = update s.pc p next)
    (hvalid : ∀ c q, s.owner c = some q → (s.buf c).valid = true → (t.buf c).valid = true)
    (hnext : ∀ c, s.owner c = some p → ¬ reading c next → (s.buf c).valid = true) (c : Fin nbuf)
    (q : P) (hc : t.owner c = some q) (hreading : ¬ reading c (t.pc q)) :
    (t.buf c).valid = true := by
  rw [howner] at hc
  rw [hpc] at hreading
  by_cases hq : q = p
  · subst q
    rw [update_self] at hreading
    exact hvalid c p hc (hnext c hc hreading)
  · rw [update_of_ne hq] at hreading
    exact hvalid c q hc (h.held c q hc hreading)

/-- The data of a read come from the disk as it is now. -/
theorem Truthful.data_served (h : Truthful start trace s) {e : Bool}
    (hbuf : t.buf = update s.buf b
      (served e (s.disk ((s.buf b).dev % 2) (s.buf b).blockno) (s.buf b)))
    (hlabel : ∀ c, changeOf c label = none) (hwrite : e = true → (s.buf b).dirty = true)
    (c : Fin nbuf) (hflag : t.HasFlag c) : FromDisk start (trace ++ [label]) t c := by
  by_cases hread : (s.buf b).dirty = false ∧ e = false
  · by_cases hcb : c = b
    · subst c
      refine ⟨trace, [label], s, rfl, h.reached, ⟨?_, fun _ _ => trivial⟩, ?_⟩
      · simp [hbuf, served, hread]
      · simp [hbuf, served, hread, hlabel]
    · rw [HasFlag, hbuf, update_of_ne hcb] at hflag
      refine (h.data c hflag).kept h.reached ?_
      rw [hbuf, update_of_ne hcb]
      exact ⟨rfl, rfl, by rw [hlabel]; rfl⟩
  · refine h.kept (kept_setBuf (fun c _ => hlabel c) hbuf fun _ => ?_) c hflag
    have hdirty : (s.buf b).dirty = true := by
      cases e with
      | true => exact hwrite rfl
      | false => simpa using hread
    rw [served, if_neg hread]
    exact ⟨.inr hdirty, rfl, rfl, by rw [hlabel]; rfl⟩

theorem Truthful.step [Fintype P] (h : Truthful start trace s) (hlist : ListOk s)
    (hmeet : NoReadError s label) (hstep : Bcache.step s label = some t) :
    Truthful start (trace ++ [label]) t := by
  have hreached : exec Bcache.step start (trace ++ [label]) = some t := by
    rw [exec_append, h.reached, Option.bind_some, exec_cons, hstep]
    rfl
  cases step_ok hstep with
  | @hit p dev blockno b hpc _ =>
    refine ⟨hreached, h.kept (kept_setBuf (fun _ _ => rfl) rfl fun hflag =>
      ⟨hflag, rfl, rfl, rfl⟩), h.held_move rfl rfl ?_ ?_⟩
    · intro c _ _ hvalid
      exact valid_setBuf (v := { s.buf b with refcnt := (s.buf b).refcnt + 1 }) id c hvalid
    · intro c hc _
      exact h.held c p hc (by simp [hpc, reading])
  | @recycle p dev blockno b hpc hfound hunused =>
    have hfree := hlist.unlocked (findUnused_some hlist.ring hunused).1
    refine ⟨hreached, h.kept (kept_setBuf (fun _ _ => rfl) rfl (by simp [recycled])),
      h.held_move rfl rfl ?_ ?_⟩
    · intro c q hc hvalid
      have hcb : c ≠ b := by
        rintro rfl
        rw [hfree] at hc
        cases hc
      simpa [setPc, setBuf, hcb] using hvalid
    · intro c hc _
      exact h.held c p hc (by simp [hpc, reading])
  | @acquiresleep p b hpc hfree =>
    refine ⟨hreached, h.kept fun _ hflag => ⟨hflag, rfl, rfl, rfl⟩, ?_⟩
    intro c q hc hreading
    simp only [setPc, setOwner] at hc hreading ⊢
    by_cases hcb : c = b
    · subst c
      rw [update_self, Option.some.injEq] at hc
      subst q
      simp [reading] at hreading
    · rw [update_of_ne hcb] at hc
      refine h.held c q hc ?_
      by_cases hq : q = p
      · subst q
        simp [hpc, reading]
      · rwa [update_of_ne hq] at hreading
  | @readTest p b hpc =>
    refine ⟨hreached, h.kept fun _ hflag => ⟨hflag, rfl, rfl, rfl⟩,
      h.held_move rfl rfl (fun _ _ _ => id) ?_⟩
    intro c hc hnext
    by_cases hcb : b = c
    · subst c
      by_contra hvalid
      simp [hvalid, reading] at hnext
    · exact h.held c p hc (by simpa [hpc, reading] using hcb)
  | @iderw p b hpc =>
    refine ⟨hreached, h.kept fun _ hflag => ⟨hflag, rfl, rfl, rfl⟩,
      h.held_move rfl rfl (fun _ _ _ => id) ?_⟩
    intro c hc hnext
    exact h.held c p hc (by rwa [hpc])
  | @wakeup p b hpc hvalid _ =>
    refine ⟨hreached, h.kept fun _ hflag => ⟨hflag, rfl, rfl, rfl⟩,
      h.held_move rfl rfl (fun _ _ _ => id) ?_⟩
    intro c hc _
    by_cases hcb : b = c
    · exact hcb ▸ hvalid
    · exact h.held c p hc (by simpa [hpc, reading] using hcb)
  | @modify p b f hpc howner =>
    have hvalid := h.held b p howner (by simp [hpc, reading])
    refine ⟨hreached, h.kept (kept_setBuf (fun c hc => if_neg (Ne.symm hc)) rfl fun _ =>
      ⟨.inl hvalid, rfl, rfl, by simp [changeOf]⟩), ?_⟩
    intro c q hc hreading
    exact valid_setBuf (by exact id) c (h.held c q hc hreading)
  | @logWrite p b hpc howner =>
    have hvalid := h.held b p howner (by simp [hpc, reading])
    refine ⟨hreached, h.kept (kept_setBuf (fun _ _ => rfl) rfl fun _ =>
      ⟨.inl hvalid, rfl, rfl, rfl⟩), ?_⟩
    intro c q hc hreading
    exact valid_setBuf (by exact id) c (h.held c q hc hreading)
  | @bwrite p b hpc howner =>
    have hvalid := h.held b p howner (by simp [hpc, reading])
    refine ⟨hreached, h.kept (kept_setBuf (fun _ _ => rfl) rfl fun _ =>
      ⟨.inl hvalid, rfl, rfl, rfl⟩), h.held_move rfl rfl ?_ ?_⟩
    · intro c _ _ hvalid
      exact valid_setBuf (v := { s.buf b with dirty := true }) id c hvalid
    · intro c hc _
      exact h.held c p hc (by simp [hpc, reading])
  | @brelse p b hpc howner =>
    refine ⟨hreached, h.kept fun _ hflag => ⟨hflag, rfl, rfl, rfl⟩, ?_⟩
    intro c q hc hreading
    simp only [setPc, setOwner] at hc hreading ⊢
    have hcb : c ≠ b := by
      rintro rfl
      simp at hc
    rw [update_of_ne hcb] at hc
    refine h.held c q hc ?_
    by_cases hq : q = p
    · subst q
      simp [hpc, reading]
    · rwa [update_of_ne hq] at hreading
  | @unref p b hpc =>
    obtain ⟨hbuf, howner, hpcs⟩ := unref_fields s b
    have hmove : ((s.unref b).setPc p .idle).pc = update s.pc p .idle := by
      simp only [setPc, hpcs]
    refine ⟨hreached, h.kept (kept_setBuf (fun _ _ => rfl) hbuf fun hflag =>
      ⟨hflag, rfl, rfl, rfl⟩), h.held_move howner hmove ?_ ?_⟩
    · intro c _ _ hvalid
      simp only [setPc, hbuf]
      exact valid_setBuf (by exact id) c hvalid
    · intro c hc _
      exact h.held c p hc (by simp [hpc, reading])
  | spurious _ => exact ⟨hreached, h.kept fun _ hflag => ⟨hflag, rfl, rfl, rfl⟩, h.held⟩
  | @served df err done b rest hqueue =>
    have hserved : (served (df || err) (s.disk ((s.buf b).dev % 2) (s.buf b).blockno)
        (s.buf b)).valid = true := by
      unfold served
      split <;> rfl
    refine ⟨hreached, h.data_served rfl (fun _ => rfl) fun hfailed => ?_, ?_⟩
    · exact hmeet hfailed b (by rw [hqueue]; rfl)
    · intro c q hc hreading
      exact valid_setBuf (fun _ => hserved) c (h.held c q hc hreading)

theorem Truthful.run [Fintype P] {rest : List (BcacheLabel P D)} (h : Truthful start trace s)
    (hlist : ListOk s) (hmeet : StepsMeet Bcache.step NoReadError s rest)
    (hexec : exec Bcache.step s rest = some t) : Truthful start (trace ++ rest) t := by
  induction rest generalizing trace s with
  | nil =>
    obtain rfl : s = t := by simpa using hexec
    rwa [List.append_nil]
  | cons label rest ih =>
    obtain ⟨next, hstep, hrest⟩ := exec_cons_eq_some hexec
    have hnext := ih (h.step hlist hmeet.1 hstep) (hlist.step (step_ok hstep))
      (hmeet.2 next hstep) hrest
    rwa [List.append_assoc] at hnext

end Steps

end Bcache

section Statement

variable [Fintype P] [DecidableEq P]

/-- In every run in which no read is reported as an error, the data of a buffer
with `B_VALID` are what the disk had in its block at an earlier point of the run,
with the changes made since by processes that held the buffer. -/
theorem valid_data_truthful {start s : Bcache P D} {trace : List (BcacheLabel P D)}
    (hstart : Bcache.Initial start) (hmeet : StepsMeet Bcache.step Bcache.NoReadError start trace)
    (hexec : exec Bcache.step start trace = some s) (b : Fin nbuf)
    (hvalid : (s.buf b).valid = true) : Bcache.FromDisk start trace s b :=
  ((Bcache.truthful_initial hstart).run (Bcache.listOk_initial hstart) hmeet hexec).data b
    (.inl hvalid)

end Statement

def failedRead : List (BcacheLabel Unit ℕ) :=
  [.code () (.bread 1 5), .code () .acquiresleep, .code () .readTest,
    .code () .iderw, .interrupt true false true, .code () .wakeup]

/-- `bread` returns a buffer with `B_VALID` whose data the disk never had in the block; they are
what was in the buffer before. -/
theorem failed_read_is_valid :
    ∃ s, exec Bcache.step bcacheAtBoot failedRead = some s ∧ s.pc () = .idle ∧
      s.owner 0 = some () ∧ (s.buf 0).dev = 1 ∧ (s.buf 0).blockno = 5 ∧
      (s.buf 0).valid = true ∧ (s.buf 0).data = (bcacheAtBoot.buf 0).data ∧
      ¬ Bcache.FromDisk bcacheAtBoot failedRead s 0 := by
  obtain ⟨s, hexec, htest⟩ : ∃ s, exec Bcache.step bcacheAtBoot failedRead = some s ∧
      decide (s.pc () = .idle ∧
        s.owner 0 = some () ∧ (s.buf 0).dev = 1 ∧ (s.buf 0).blockno = 5 ∧
        (s.buf 0).valid = true ∧ (s.buf 0).data = (bcacheAtBoot.buf 0).data) = true :=
    exec_of_any (by decide +kernel)
  obtain ⟨hpc, howner, hdev, hblockno, hvalid, hdata⟩ := of_decide_eq_true htest
  refine ⟨s, hexec, hpc, howner, hdev, hblockno, hvalid, hdata, ?_⟩
  rintro ⟨before, after, r, htrace, hbefore, -, hread⟩
  have hdisk : ∀ k ≤ 6, (exec Bcache.step bcacheAtBoot (failedRead.take k)).all fun r =>
      r.disk 1 5 = 7 := by decide +kernel
  have hchanges : failedRead.filterMap (Bcache.changeOf 0) = [] := rfl
  have hr := hdisk before.length (by
    have hlength := congrArg List.length htrace
    simp [failedRead] at hlength
    omega)
  rw [htrace, List.take_left, hbefore, Option.all_some, decide_eq_true_eq] at hr
  rw [htrace, List.filterMap_append, List.append_eq_nil_iff] at hchanges
  rw [hdev, hblockno, hchanges.2, List.foldl_nil, hr, hdata] at hread
  cases hread

/-- A read without an error. -/
theorem valid_data_truthful_firstBlock :
    ∃ s, exec Bcache.step bcacheAtBoot (readAndRelease 5 0) = some s ∧
      Bcache.FromDisk bcacheAtBoot (readAndRelease 5 0) s 0 := by
  obtain ⟨s, hexec, htest⟩ : ∃ s, exec Bcache.step bcacheAtBoot (readAndRelease 5 0) =
      some s ∧ (s.buf 0).valid = true :=
    exec_of_any (by decide +kernel)
  refine ⟨s, hexec, valid_data_truthful bcacheAtBoot_initial ?_ hexec 0 htest⟩
  simp [readAndRelease, StepsMeet, Bcache.NoReadError]

end Xv6Kernel
