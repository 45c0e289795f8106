import Xv6Kernel.LogSession

/-!
# The buffer cache as a flat disk

Whatever is read, changed, logged, written, released, committed and evicted, a
block that `bread` returns holds what `log_write` or `bwrite` stored there
last.  The history of stores is kept beside the machine.  `commit` and recovery
store blocks as well, through `bwrite`; outside of the log they only store what
is there already.

The buffers of a caller are the ones that `bread` has returned to it and that it
has not released.
-/

namespace Xv6Kernel

open TraceExecution StateHoare RedoLog Function List

/-- One `log_write` or `bwrite`.  The flag marks those of `log.c` itself. -/
structure Store where
  dev : ℕ
  blockno : ℕ
  data : Block
  commit : Bool

def lastStored (d : ℕ → Block) (stores : List Store) (dev blockno : ℕ) : Block :=
  match stores.reverse.find? fun s => s.dev = dev ∧ s.blockno = blockno with
  | some s => s.data
  | none => d blockno

inductive CacheEvent
  | beginOp
  | bread (dev blockno : ℕ)
  | logWrite (i : Fin nbuf) (f : Block → Block)
  | bwrite (i : Fin nbuf) (f : Block → Block)
  | brelse (i : Fin nbuf)
  | endOp

def checkHeld (i : Fin nbuf) : Fs PUnit :=
  check (fun m => (m.buf i).valid && (m.buf i).locked) .blocked

def runCacheEvent : CacheEvent → Fs PUnit
  | .beginOp => beginOp
  | .bread dev blockno => do
      let _ ← bread dev blockno
  | .logWrite i f => do
      checkHeld i
      setBuf i fun b => { b with data := f b.data }
      logWrite i
  | .bwrite i f => do
      checkHeld i
      setBuf i fun b => { b with data := f b.data }
      bwrite i
  | .brelse i => do
      checkHeld i
      brelse i
  | .endOp => endOp

/-- The stores that `log.c` made while the disk writes of `m` grew to those of
`m'`. -/
def logStores (m m' : Machine) : List Store :=
  (m'.writes.drop m.writes.length).map fun write =>
    ⟨rootdev, write.1, write.2, true⟩

def storesOf (m m' : Machine) : CacheEvent → List Store
  | .logWrite i _ | .bwrite i _ =>
      [⟨(m'.buf i).dev, (m'.buf i).blockno, (m'.buf i).data, false⟩]
  | .endOp => logStores m m'
  | .beginOp | .bread _ _ | .brelse _ => []

structure CacheRun where
  machine : Machine
  stores : List Store

namespace CacheRun

def step (s : CacheRun) (event : CacheEvent) : Option CacheRun :=
  match runCacheEvent event s.machine with
  | .ok _ m => some ⟨m, s.stores ++ storesOf s.machine m event⟩
  | .error _ _ => none

def start (d : ℕ → Block) (m : Machine) : CacheRun :=
  ⟨m, logStores (boot d) m⟩

end CacheRun

section Histories

variable {d : ℕ → Block} {stores : List Store} {dev b : ℕ}

theorem lastStored_concat (s : Store) :
    lastStored d (stores ++ [s]) dev b =
      if s.dev = dev ∧ s.blockno = b then s.data
      else lastStored d stores dev b := by
  unfold lastStored
  simp only [reverse_append, reverse_singleton, singleton_append, find?_cons]
  by_cases hs : s.dev = dev ∧ s.blockno = b
  · simp [hs]
  · simp [hs]

theorem lastStored_writes (commit : Bool) (writes : List (ℕ × Block)) :
    lastStored d (stores ++ writes.map fun write =>
      ⟨rootdev, write.1, write.2, commit⟩) rootdev =
      applyWrites (lastStored d stores rootdev) writes := by
  induction writes using reverseRecOn with
  | nil => simp
  | append_singleton writes write ih =>
    funext b
    rw [map_append, map_singleton, ← append_assoc, lastStored_concat, ih, applyWrites_concat]
    by_cases hb : b = write.1
    · simp [hb]
    · simp [hb, Ne.symm hb]

end Histories

/-- Since `m`, which stood for `contents`, only `bwrite` has stored anything. -/
structure Evolved (m : Machine) (contents : ℕ → Block) (dirty : Set ℕ)
    (m' : Machine) (contents' : ℕ → Block) : Prop where
  writes : ∃ writes, m'.writes = m.writes ++ writes ∧
    contents' = applyWrites contents writes
  cached : ∃ dirty', dirty' ⊆ dirty ∧ Cached m' contents' dirty'

section Functions

variable {m m1 m2 : Machine} {contents contents1 : ℕ → Block}
variable {dirty : Set ℕ} {b dev : ℕ} {i j : Fin nbuf} {data : Block}

theorem Cached.evolved (hcached : Cached m1 contents dirty)
    (hwrites : m1.writes = m.writes) : Evolved m contents dirty m1 contents :=
  ⟨⟨[], by simp [hwrites], rfl⟩, dirty, subset_rfl, hcached⟩

theorem Evolved.of_writes (h : Evolved m1 contents dirty m2 contents1)
    (hwrites : m1.writes = m.writes) : Evolved m contents dirty m2 contents1 := by
  obtain ⟨hfirst, hcached⟩ := h
  rw [hwrites] at hfirst
  exact ⟨hfirst, hcached⟩

theorem Evolved.of_log (h : Evolved m contents dirty m1 contents1) (log : Log) :
    Evolved m contents dirty { m1 with log := log } contents1 := by
  obtain ⟨hwrites, dirty', hsub, hcached⟩ := h
  exact ⟨hwrites, dirty', hsub, hcached.of_log log⟩

theorem Evolved.stored {dirty' : Set ℕ} (h : Evolved m contents dirty m1 contents1)
    (hsub : dirty' ⊆ dirty) (hstored : Stored m1 m2 contents1 dirty' b data) :
    Evolved m contents dirty m2 (update contents1 b data) := by
  obtain ⟨⟨writes, hwrites, rfl⟩, _⟩ := h
  refine ⟨⟨writes ++ [(b, data)], ?_, ?_⟩, dirty' \ {b}, ?_, hstored.cached⟩
  · rw [hstored.writes, hwrites, append_assoc]
  · rw [applyWrites_concat]
  · exact Set.sdiff_subset.trans hsub

theorem ensures_iderw_other (hdev : (m.buf i).dev ≠ rootdev) :
    Ensures (iderw i) m (fun _ _ => False) fun _ => True := by
  simp only [iderw, ensures_bind, ensures_check]
  split_ifs
  all_goals simp_all

theorem ensures_bread_other (hcached : Cached m contents dirty) (hdev : dev ≠ rootdev) :
    Ensures (bread dev b) m (fun _ _ => False) fun _ => True := by
  rw [bread, ensures_bind, bget, ensures_bind, ensures_get]
  cases hfind : m.cached dev b with
  | some i =>
    have hmatch := find?_some hfind
    simp only [decide_eq_true_eq] at hmatch
    have hinvalid : (m.buf i).valid = false := by
      by_contra hvalid
      have hroot := (hcached.data i (by simpa using hvalid)).1
      exact hdev (hmatch.1.symm.trans hroot)
    simp only [ensures_bind, ensures_setBuf, acquireBuf, ensures_check, ensures_pure, ensures_get,
      setBuf_self, hinvalid, Bool.false_eq_true, if_false]
    split
    · apply ensures_iderw_other
      rw [setBuf_self]
      simpa [hmatch.1] using hdev
    · trivial
  | none =>
    cases m.unusedBuf with
    | none => simp
    | some i =>
      simp only [ensures_bind, ensures_setBuf, acquireBuf, ensures_check, ensures_pure, ensures_get,
        setBuf_self, Bool.false_eq_true, if_false]
      split
      · apply ensures_iderw_other
        rw [setBuf_self]
        simpa using hdev
      · trivial

theorem Acquired.not_again (hfirst : Acquired m m1 contents dirty i b)
    (hagain : Acquired m1 m2 contents dirty j b) : False := by
  by_cases hij : i = j
  · subst hij
    have hfree := hagain.free
    rw [hfirst.holds.locked] at hfree
    contradiction
  · have hholds := hfirst.holds.of_buf_eq (hagain.others i hij)
    exact hij (hagain.cached.unique i j hholds.dev hagain.holds.dev
      (hholds.blockno.trans hagain.holds.blockno.symm))

theorem ensures_bread_again (hcached : Cached m contents dirty)
    {rest : Fin nbuf → Fin nbuf → Fs PUnit} {Q : PUnit → Machine → Prop} :
    Ensures (bread rootdev b >>= fun i => bread rootdev b >>= rest i) m Q fun _ => True := by
  rw [ensures_bind]
  refine ensures_bread hcached ?_ fun _ _ _ => trivial
  intro i m1 hfirst
  rw [ensures_bind]
  refine ensures_bread hfirst.cached ?_ fun _ _ _ => trivial
  intro j m2 hagain
  exact (hfirst.not_again hagain).elim

theorem ensures_writeLogOne_stored {tail : ℕ} (hcached : Cached m contents dirty) :
    Ensures (writeLogOne tail) m
      (fun _ m' => Stored m m' contents dirty (m.log.start + tail + 1)
        (contents (m.log.block.getD tail 0))) fun _ => True := by
  by_cases hne : m.log.block.getD tail 0 = m.log.start + tail + 1
  · rw [writeLogOne, ensures_bind, ensures_get, hne]
    exact ensures_bread_again hcached
  · exact ensures_writeLogOne hcached rfl rfl hne (fun _ h => h) (fun _ _ => trivial)

theorem ensures_installOne_stored {tail : ℕ} (hcached : Cached m contents dirty) :
    Ensures (installOne tail) m
      (fun _ m' => Stored m m' contents dirty (m.log.block.getD tail 0)
        (contents (m.log.start + tail + 1))) fun _ => True := by
  by_cases hne : m.log.start + tail + 1 = m.log.block.getD tail 0
  · rw [installOne, ensures_bind, ensures_get, ← hne]
    exact ensures_bread_again hcached
  · exact ensures_installOne hcached rfl rfl hne (fun _ h => h) (fun _ _ _ => trivial)

end Functions

/-! ## Commit and recovery -/

/-- The block is neither the header nor a slot of the log that is in use. -/
def Log.Outside (log : Log) (b : ℕ) : Prop :=
  b < log.start ∨ log.start + log.block.length < b

def Log.Apart (log : Log) : Prop := ∀ b ∈ log.block, log.Outside b

/-- After `n` rounds of `write_log`: the slots hold copies of logged blocks, and
outside of the log nothing has changed. -/
structure Copied (log : Log) (contents : ℕ → Block) (n : ℕ)
    (contents' : ℕ → Block) : Prop where
  outside : ∀ b, log.Outside b → contents' b = contents b
  slots : ∀ k, k < n →
    contents' (log.start + k + 1) = contents (log.block.getD k 0)

section Commit

variable {log : Log} {contents contents' : ℕ → Block} {n k : ℕ}

theorem Log.Apart.getD (hapart : log.Apart) (hk : k < log.block.length) :
    log.Outside (log.block.getD k 0) := by
  apply hapart
  rw [getD_eq_getElem _ _ hk]
  exact getElem_mem hk

theorem Log.Outside.ne_start {b : ℕ} (hb : log.Outside b) : b ≠ log.start := by
  unfold Log.Outside at hb
  omega

theorem Log.Outside.ne_slot {b : ℕ} (hb : log.Outside b)
    (hk : k < log.block.length) : b ≠ log.start + k + 1 := by
  unfold Log.Outside at hb
  omega

theorem Copied.fill (hapart : log.Apart) (h : Copied log contents n contents')
    (hn : n < log.block.length) :
    Copied log contents (n + 1) (update contents' (log.start + n + 1)
      (contents' (log.block.getD n 0))) := by
  constructor
  · intro b hb
    rw [update_of_ne (hb.ne_slot hn), h.outside b hb]
  · intro k hk
    by_cases hkn : k = n
    · rw [hkn, update_self, h.outside _ (hapart.getD hn)]
    · rw [update_of_ne (by omega)]
      exact h.slots k (by omega)

theorem Copied.header {data : Block} (h : Copied log contents n contents') :
    Copied log contents n (update contents' log.start data) := by
  constructor
  · intro b hb
    rw [update_of_ne hb.ne_start, h.outside b hb]
  · intro k hk
    rw [update_of_ne (by omega)]
    exact h.slots k hk

theorem Copied.install (hapart : log.Apart) (h : Copied log contents log.block.length contents')
    (hk : k < log.block.length) :
    Copied log contents log.block.length
      (update contents' (log.block.getD k 0)
        (contents' (log.start + k + 1))) := by
  have hout := hapart.getD hk
  constructor
  · intro b hb
    by_cases hbk : b = log.block.getD k 0
    · rw [hbk, update_self, h.slots k hk]
    · rw [update_of_ne hbk, h.outside b hb]
  · intro j hj
    rw [update_of_ne (hout.ne_slot hj).symm]
    exact h.slots j hj

theorem ensures_writeHead_stored {m : Machine} {dirty : Set ℕ} (hcached : Cached m contents dirty) :
    Ensures writeHead m
      (fun _ m' => Stored m m' contents dirty m.log.start
        (encodeHeader m.log.block (contents m.log.start))) fun _ => True :=
  ensures_writeHead hcached (fun _ h => h) fun _ _ _ => trivial

/-- Inside `commit` or recovery, which began at `m`.  The log in memory is `log`,
and the blocks have the property `P`. -/
structure Committing (m : Machine) (contents : ℕ → Block) (dirty : Set ℕ)
    (log : Log) (P : (ℕ → Block) → Prop) (t : Machine) : Prop where
  log_eq : t.log = log
  evolved : ∃ contents', Evolved m contents dirty t contents' ∧ P contents'

variable {m t : Machine} {dirty : Set ℕ} {P P' : (ℕ → Block) → Prop}

theorem Committing.of_log (h : Committing m contents dirty log P t) (log' : Log) :
    Committing m contents dirty log' P { t with log := log' } := by
  obtain ⟨_, contents', hevolved, hP⟩ := h
  exact ⟨rfl, contents', hevolved.of_log log', hP⟩

theorem Committing.store {x : Fs PUnit} {b : ℕ} {data : (ℕ → Block) → Block}
    (h : Committing m contents dirty log P t)
    (hx : ∀ contents' dirty', Cached t contents' dirty' →
      Ensures x t (fun _ t' => Stored t t' contents' dirty' b (data contents'))
        fun _ => True)
    (hP : ∀ contents', P contents' →
      P' (update contents' b (data contents'))) :
    Ensures x t (fun _ => Committing m contents dirty log P') fun _ => True := by
  obtain ⟨hlog, contents', hevolved, hcontents⟩ := h
  obtain ⟨dirty', hsub, hcached⟩ := hevolved.cached
  refine (hx contents' dirty' hcached).post ?_
  intro _ t' hstored
  exact ⟨hstored.log.trans hlog, _, hevolved.stored hsub hstored, hP contents' hcontents⟩

theorem ensures_writeLog_copied (hcached : Cached m contents dirty) :
    Ensures writeLog m
      (fun _ => Committing m contents dirty m.log fun contents' => m.log.Apart →
        Copied m.log contents m.log.block.length contents')
      fun _ => True := by
  rw [writeLog, ensures_bind, ensures_get]
  apply ensures_forM_range (fun n => Committing m contents dirty m.log
    fun contents' => m.log.Apart → Copied m.log contents n contents')
  · exact ⟨rfl, contents, hcached.evolved rfl, fun _ => ⟨fun _ _ => rfl, by simp⟩⟩
  · intro n t hn ht
    refine ht.store (fun _ _ h => ensures_writeLogOne_stored h) ?_
    intro contents' hcopied hapart
    rw [ht.log_eq]
    exact (hcopied hapart).fill hapart hn

theorem ensures_installTrans_committing
    (ht : Committing m contents dirty log P t)
    (hP : ∀ k < log.block.length, ∀ contents', P contents' →
      P (update contents' (log.block.getD k 0)
        (contents' (log.start + k + 1)))) :
    Ensures installTrans t
      (fun _ => Committing m contents dirty log P) fun _ => True := by
  rw [installTrans, ensures_bind, ensures_get, ht.log_eq]
  apply ensures_forM_range (fun _ => Committing m contents dirty log P) ht
  intro k t' hk ht'
  refine ht'.store (fun _ _ h => ensures_installOne_stored h) ?_
  rw [ht'.log_eq]
  exact hP k hk

theorem ensures_writeHead_committing (ht : Committing m contents dirty log P t)
    (hP : ∀ contents' data, P contents' → P (update contents' log.start data)) :
    Ensures writeHead t
      (fun _ => Committing m contents dirty log P) fun _ => True := by
  refine ht.store (fun _ _ h => ensures_writeHead_stored h) ?_
  rw [ht.log_eq]
  intro contents' hcontents
  exact hP contents' _ hcontents

section

variable (hcached : Cached m contents dirty)

include hcached

theorem ensures_commit_flat :
    Ensures commit m
      (fun _ t => t.log = { m.log with block := [] } ∧
        ∃ contents', Evolved m contents dirty t contents' ∧
          (m.log.block = [] → contents' = contents) ∧
          (m.log.Apart → ∀ b, m.log.Outside b → contents' b = contents b))
      fun _ => True := by
  rw [commit, ensures_bind, ensures_get]
  by_cases hpos : 0 < m.log.block.length
  · have hheader : ∀ contents' data,
        (m.log.Apart → Copied m.log contents m.log.block.length contents') →
        m.log.Apart → Copied m.log contents m.log.block.length
          (update contents' m.log.start data) := by
      intro contents' data hcopied hapart
      exact (hcopied hapart).header
    rw [if_pos hpos, ensures_bind]
    refine (ensures_writeLog_copied hcached).post ?_
    intro _ t1 h1
    rw [ensures_bind]
    refine (ensures_writeHead_committing h1 hheader).post ?_
    intro _ t2 h2
    rw [ensures_bind]
    refine (ensures_installTrans_committing h2 ?_).post ?_
    · intro k hk contents' hcopied hapart
      exact (hcopied hapart).install hapart hk
    · intro _ t3 h3
      rw [ensures_bind, ensures_setLog, h3.log_eq]
      have h3' := h3.of_log { m.log with block := [] }
      refine (ensures_writeHead_committing h3' hheader).post ?_
      rintro _ t4 ⟨hlog, contents', hevolved, hcopied⟩
      refine ⟨hlog, contents', hevolved, ?_, ?_⟩
      · intro hnil
        simp [hnil] at hpos
      · intro hapart
        exact (hcopied hapart).outside
  · have hnil : m.log.block = [] := by simpa using hpos
    rw [if_neg hpos, ensures_pure, ← hnil]
    exact ⟨rfl, contents, hcached.evolved rfl, fun _ => rfl, fun _ _ _ => rfl⟩

theorem ensures_readHead_evolved :
    Ensures readHead m
      (fun _ t => Cached t contents dirty ∧ t.writes = m.writes)
      fun _ => True := by
  rw [readHead, ensures_bind, ensures_get, ensures_bind]
  apply ensures_bread hcached
  · intro i m1 hheld
    rw [ensures_bind, ensures_get, ensures_bind, ensures_setLog]
    have hcached1 := hheld.cached.of_log { m1.log with block := headerBlocks (m1.buf i).data }
    apply ensures_brelse hcached1 (hheld.holds.of_buf_eq rfl)
    intro m2 hfree
    exact ⟨hfree.cached, hfree.same.writes.trans hheld.same.writes⟩
  · intro _ _ _
    trivial

theorem ensures_readsb_evolved :
    Ensures readsb m
      (fun _ t => Cached t contents dirty ∧ t.writes = m.writes)
      fun _ => True := by
  rw [readsb, ensures_bind]
  apply ensures_bread hcached
  · intro i m1 hheld
    rw [ensures_bind, ensures_get, ensures_bind]
    apply ensures_brelse hheld.cached hheld.holds
    intro m2 hfree
    exact ⟨hfree.cached, hfree.same.writes.trans hheld.same.writes⟩
  · intro _ _ _
    trivial

theorem ensures_recoverFromLog_evolved :
    Ensures recoverFromLog m
      (fun _ t => t.log.block = [] ∧
        ∃ contents', Evolved m contents dirty t contents')
      fun _ => True := by
  rw [recoverFromLog, ensures_bind]
  refine (ensures_readHead_evolved hcached).post ?_
  rintro _ t1 ⟨hcached1, hwrites⟩
  have h1 : Committing m contents dirty t1.log (fun _ => True) t1 :=
    ⟨rfl, contents, hcached1.evolved hwrites, trivial⟩
  rw [ensures_bind]
  refine (ensures_installTrans_committing h1 fun _ _ _ h => h).post ?_
  intro _ t2 h2
  rw [ensures_bind, ensures_setLog]
  have h2' := h2.of_log { t2.log with block := [] }
  refine (ensures_writeHead_committing h2' fun _ _ h => h).post ?_
  rintro _ t3 ⟨hlog, contents', hevolved, _⟩
  rw [hlog]
  exact ⟨rfl, contents', hevolved⟩

theorem ensures_initlog_evolved :
    Ensures initlog m
      (fun _ t => t.log.block = [] ∧
        ∃ contents', Evolved m contents dirty t contents')
      fun _ => True := by
  rw [initlog, ensures_bind]
  refine (ensures_readsb_evolved hcached).post ?_
  rintro ⟨nlog, logstart⟩ t1 ⟨hcached1, hwrites⟩
  rw [ensures_bind, ensures_setLog]
  refine (ensures_recoverFromLog_evolved (hcached1.of_log _)).post ?_
  rintro _ t2 ⟨hblock, contents', hevolved⟩
  exact ⟨hblock, contents', hevolved.of_writes hwrites⟩

end

end Commit

/-! ## Runs -/

/-- The block is not one of the blocks that the superblock gives to the log. -/
def Log.Beyond (log : Log) (b : ℕ) : Prop :=
  b < log.start ∨ (log.start + log.size : ℤ) ≤ b

instance (log : Log) (b : ℕ) : Decidable (log.Beyond b) :=
  inferInstanceAs (Decidable (_ ∨ _))

namespace CacheRun

def callerStores (s : CacheRun) : List Store :=
  s.stores.filter fun store => !store.commit

def SparesLog (s : CacheRun) : Prop :=
  ∀ store ∈ s.callerStores, s.machine.log.Beyond store.blockno

instance (s : CacheRun) : Decidable s.SparesLog :=
  inferInstanceAs (Decidable (∀ store ∈ s.callerStores, _))

/-- The machine stands for the blocks stored last.  `d` is the disk at the boot
and `d0` the disk after `initlog`. -/
structure Flat (d d0 : ℕ → Block) (dirty : Set ℕ) (s : CacheRun) : Prop where
  cached : Cached s.machine (lastStored d s.stores rootdev) dirty
  fits : s.machine.log.block = [] ∨
    (s.machine.log.block.length : ℤ) < s.machine.log.size
  logged : s.SparesLog → ∀ b ∈ s.machine.log.block, s.machine.log.Beyond b
  home : s.SparesLog → ∀ b, s.machine.log.Beyond b →
    lastStored d s.stores rootdev b = lastStored d0 s.callerStores rootdev b

variable {d d0 : ℕ → Block} {dirty dirty' : Set ℕ} {m m' : Machine}
variable {stores : List Store} {b : ℕ} {i : Fin nbuf} {data : Block}

section

variable (h : Flat d d0 dirty ⟨m, stores⟩)

include h

theorem Flat.same (hcached : Cached m' (lastStored d stores rootdev) dirty)
    (hstart : m'.log.start = m.log.start) (hsize : m'.log.size = m.log.size)
    (hblock : m'.log.block = m.log.block) : Flat d d0 dirty ⟨m', stores⟩ := by
  have hbeyond : ∀ b, m'.log.Beyond b ↔ m.log.Beyond b := by
    intro b
    simp only [Log.Beyond, hstart, hsize]
  have hspares : SparesLog ⟨m', stores⟩ ↔ SparesLog ⟨m, stores⟩ := by
    simp only [SparesLog, callerStores, hbeyond]
  constructor
  · exact hcached
  · simpa only [hblock, hsize] using h.fits
  · simpa only [hspares, hblock, hbeyond] using h.logged
  · simpa only [hspares, hbeyond, callerStores] using h.home

theorem Flat.store (hcached : Cached m' (update (lastStored d stores rootdev) b data) dirty')
    (hstart : m'.log.start = m.log.start) (hsize : m'.log.size = m.log.size)
    (hfits : m'.log.block = [] ∨ (m'.log.block.length : ℤ) < m'.log.size)
    (hblock : ∀ x ∈ m'.log.block, x ∈ m.log.block ∨ x = b) :
    Flat d d0 dirty' ⟨m', stores ++ [⟨rootdev, b, data, false⟩]⟩ := by
  have hbeyond : ∀ b, m'.log.Beyond b ↔ m.log.Beyond b := by
    intro b
    simp only [Log.Beyond, hstart, hsize]
  have hcaller : callerStores ⟨m', stores ++ [⟨rootdev, b, data, false⟩]⟩ =
      callerStores ⟨m, stores⟩ ++ [⟨rootdev, b, data, false⟩] := by
    simp [callerStores]
  have hspares : SparesLog ⟨m', stores ++ [⟨rootdev, b, data, false⟩]⟩ →
      SparesLog ⟨m, stores⟩ ∧ m.log.Beyond b := by
    intro hall
    unfold SparesLog at hall
    rw [hcaller] at hall
    constructor
    · intro store hmem
      exact (hbeyond _).mp (hall store (mem_append_left _ hmem))
    · exact (hbeyond _).mp (hall _ mem_concat_self)
  have hlast : lastStored d (stores ++ [⟨rootdev, b, data, false⟩]) rootdev =
      update (lastStored d stores rootdev) b data := by
    funext x
    rw [lastStored_concat]
    by_cases hx : x = b
    · simp [hx]
    · simp [hx, Ne.symm hx]
  constructor
  · rw [hlast]
    exact hcached
  · exact hfits
  · intro hall x hx
    rw [hbeyond]
    rcases hblock x hx with hx | hx
    · exact h.logged (hspares hall).1 x hx
    · rw [hx]
      exact (hspares hall).2
  · intro hall x hx
    rw [hcaller, lastStored_concat, lastStored_concat,
      h.home (hspares hall).1 x ((hbeyond x).mp hx)]

theorem Flat.holds
    (hheld : ((m.buf i).valid && (m.buf i).locked) = true) : Holds m i (m.buf i).blockno := by
  rw [Bool.and_eq_true] at hheld
  exact ⟨(h.cached.data i hheld.1).1, rfl, hheld.1, hheld.2⟩

theorem Flat.event_bread {dev : ℕ} :
    Ensures (runCacheEvent (.bread dev b)) m
      (fun _ m' => Flat d d0 dirty ⟨m', stores⟩) fun _ => True := by
  rw [runCacheEvent, ensures_bind]
  by_cases hdev : dev = rootdev
  · subst hdev
    apply ensures_bread h.cached
    · intro i m' hheld
      apply h.same hheld.cached
      all_goals rw [hheld.same.log]
    · intro _ _ _
      trivial
  · exact (ensures_bread_other h.cached hdev).post fun _ _ hfalse => hfalse.elim

theorem Flat.event_brelse :
    Ensures (runCacheEvent (.brelse i)) m
      (fun _ m' => Flat d d0 dirty ⟨m', stores⟩) fun _ => True := by
  rw [runCacheEvent, ensures_bind, checkHeld, ensures_check]
  split
  next hheld =>
    apply ensures_brelse h.cached (h.holds hheld)
    intro m' hfree
    apply h.same hfree.cached
    all_goals rw [hfree.same.log]
  next => trivial

theorem Flat.event_bwrite {f : Block → Block} :
    Ensures (runCacheEvent (.bwrite i f)) m
      (fun _ m' => ∃ dirty', Flat d d0 dirty' ⟨m', stores ++
        storesOf m m' (.bwrite i f)⟩) fun _ => True := by
  rw [runCacheEvent, ensures_bind, checkHeld, ensures_check]
  split
  next hheld =>
    rw [ensures_bind, ensures_setBuf]
    apply ensures_bwrite h.cached (h.holds hheld)
    intro m' hwritten
    have hdata := (hwritten.cached.data i hwritten.holds.valid).2.2
    rw [hwritten.holds.blockno, update_self] at hdata
    simp only [storesOf, hwritten.holds.dev, hwritten.holds.blockno, hdata]
    refine ⟨_, h.store hwritten.cached ?_ ?_ ?_ ?_⟩
    all_goals rw [hwritten.log]
    · exact h.fits
    · exact fun x hx => Or.inl hx
  next => trivial

theorem Flat.event_logWrite {f : Block → Block} :
    Ensures (runCacheEvent (.logWrite i f)) m
      (fun _ m' => ∃ dirty', Flat d d0 dirty' ⟨m', stores ++
        storesOf m m' (.logWrite i f)⟩) fun _ => True := by
  rw [runCacheEvent, ensures_bind, checkHeld, ensures_check]
  split
  next hheld =>
    have hholds := h.holds hheld
    simp only [logWrite, ensures_bind, ensures_setBuf, ensures_check,
      ensures_get, ensures_setLog, setBuf_self, setBuf_log]
    split
    next hroom =>
      split
      · have hcached := h.cached.modified hholds (f (m.buf i).data)
        have hfits : ((absorb m.log.block (m.buf i).blockno).length : ℤ) <
            m.log.size := by
          have hlength := absorb_length_le_succ m.log.block (m.buf i).blockno
          simp only [decide_eq_true_eq, not_or, not_le] at hroom
          omega
        have hstore := h.store hcached rfl rfl (Or.inr hfits) fun x => mem_absorb.mp
        refine ⟨insert (m.buf i).blockno dirty, ?_⟩
        simpa [storesOf, Machine.modified, Machine.setBuf, hholds.dev] using hstore
      · trivial
    next => trivial
  next => trivial

theorem Flat.outside (hb : m.log.Beyond b) (hne : m.log.block ≠ []) : m.log.Outside b := by
  have hfits := h.fits.resolve_left hne
  unfold Log.Beyond at hb
  unfold Log.Outside
  simp only at hfits
  omega

end

theorem logStores_eq {writes : List (ℕ × Block)} (hwrites : m'.writes = m.writes ++ writes) :
    logStores m m' = writes.map fun write =>
      ⟨rootdev, write.1, write.2, true⟩ := by
  simp [logStores, hwrites]

theorem Flat.committed {contents' : ℕ → Block} (h : Flat d d0 dirty ⟨m, stores⟩)
    (hlog : m'.log = { m.log with block := [] })
    (hevolved : Evolved m (lastStored d stores rootdev) dirty m' contents')
    (hempty : m.log.block = [] → contents' = lastStored d stores rootdev)
    (houtside : m.log.Apart → ∀ b, m.log.Outside b → contents' b = lastStored d stores rootdev b) :
    ∃ dirty', Flat d d0 dirty' ⟨m', stores ++ logStores m m'⟩ := by
  obtain ⟨⟨writes, hwrites, rfl⟩, dirty', _, hcached⟩ := hevolved
  have hlast : lastStored d (stores ++ logStores m m') rootdev =
      applyWrites (lastStored d stores rootdev) writes := by
    rw [logStores_eq hwrites]
    exact lastStored_writes true writes
  have hcaller : callerStores ⟨m', stores ++ logStores m m'⟩ =
      callerStores ⟨m, stores⟩ := by
    simp [callerStores, logStores_eq hwrites, filter_map]
  have hbeyond : ∀ b, m'.log.Beyond b ↔ m.log.Beyond b := by
    intro b
    simp only [Log.Beyond, hlog]
  have hspares : SparesLog ⟨m', stores ++ logStores m m'⟩ →
      SparesLog ⟨m, stores⟩ := by
    intro hall
    unfold SparesLog at hall ⊢
    simpa only [hcaller, hbeyond] using hall
  refine ⟨dirty', ?_, ?_, ?_, ?_⟩
  · rw [hlast]
    exact hcached
  · simp [hlog]
  · simp [hlog]
  · intro hall b hb
    rw [hcaller, hlast, ← h.home (hspares hall) b ((hbeyond b).mp hb)]
    by_cases hne : m.log.block = []
    · rw [hempty hne]
    · apply houtside
      · intro x hx
        exact h.outside (h.logged (hspares hall) x hx) hne
      · exact h.outside ((hbeyond b).mp hb) hne

theorem Flat.event_endOp (h : Flat d d0 dirty ⟨m, stores⟩) :
    Ensures (runCacheEvent .endOp) m
      (fun _ m' => ∃ dirty', Flat d d0 dirty' ⟨m', stores ++ logStores m m'⟩)
      fun _ => True := by
  rw [runCacheEvent, endOp, ensures_bind, ensures_setLog, ensures_bind, ensures_get]
  have h' : Flat d d0 dirty
      ⟨{ m with log := { m.log with outstanding := m.log.outstanding - 1 } },
        stores⟩ := h.same (h.cached.of_log _) rfl rfl rfl
  split
  · refine (ensures_commit_flat h'.cached).post ?_
    rintro _ m' ⟨hlog, contents', hevolved, hempty, houtside⟩
    exact h'.committed hlog hevolved hempty houtside
  · have hnone : logStores m { m with
        log := { m.log with outstanding := m.log.outstanding - 1 } } = [] := by
      simp [logStores]
    rw [ensures_pure, hnone, append_nil]
    exact ⟨dirty, h'⟩

theorem Flat.event_beginOp (h : Flat d d0 dirty ⟨m, stores⟩) :
    Ensures (runCacheEvent .beginOp) m
      (fun _ m' => Flat d d0 dirty ⟨m', stores⟩) fun _ => True := by
  rw [runCacheEvent, beginOp, ensures_bind, ensures_check]
  split
  · exact h.same (h.cached.of_log _) rfl rfl rfl
  · trivial

theorem Flat.step {s t : CacheRun} {event : CacheEvent} (h : ∃ dirty, Flat d d0 dirty s)
    (hstep : s.step event = some t) : ∃ dirty, Flat d d0 dirty t := by
  obtain ⟨dirty, h⟩ := h
  unfold CacheRun.step at hstep
  split at hstep
  next m' hrun =>
    obtain rfl := Option.some.inj hstep
    cases event with
    | beginOp =>
      rw [storesOf, append_nil]
      exact ⟨dirty, h.event_beginOp.of_ok hrun⟩
    | bread dev b =>
      rw [storesOf, append_nil]
      exact ⟨dirty, h.event_bread.of_ok hrun⟩
    | logWrite i f => exact h.event_logWrite.of_ok hrun
    | bwrite i f => exact h.event_bwrite.of_ok hrun
    | brelse i =>
      rw [storesOf, append_nil]
      exact ⟨dirty, h.event_brelse.of_ok hrun⟩
    | endOp => exact h.event_endOp.of_ok hrun
  next => contradiction

theorem flat_start {m0 : Machine} (hboot : initlog (boot d) = .ok () m0) :
    Flat d m0.disk ∅ (start d m0) := by
  obtain ⟨hblock, contents, ⟨writes, hwrites, rfl⟩, dirty, hsub, hcached⟩ :=
    (ensures_initlog_evolved (cached_boot d)).of_ok hboot
  obtain rfl := Set.subset_empty_iff.mp hsub
  have hlast : lastStored d (start d m0).stores rootdev =
      applyWrites d writes := by
    rw [start, logStores_eq hwrites]
    exact @lastStored_writes d [] true writes
  have hcaller : (start d m0).callerStores = [] := by
    simp [start, callerStores, logStores_eq hwrites, filter_map]
  constructor
  · rw [hlast]
    exact hcached
  · exact Or.inl hblock
  · intro _
    simp [start, hblock]
  · intro _ b _
    rw [hcaller, hlast, ← hcached.clean b (Set.notMem_empty b)]
    rfl

theorem flat_of_exec {m0 : Machine} {s : CacheRun} {events : List CacheEvent}
    (hboot : initlog (boot d) = .ok () m0) (hexec : exec step (start d m0) events = some s) :
    ∃ dirty, Flat d m0.disk dirty s :=
  exec_invariant (fun _ _ _ => Flat.step) ⟨∅, flat_start hboot⟩ hexec

/-- The cache is a flat disk: `bread` returns the data that `log_write` or
`bwrite` stored last, or the block of the disk.  Away from the log only the
stores of the callers matter, over the disk that `initlog` leaves.  A block of
the disk can be read unless somebody has it, or no buffer can be recycled. -/
theorem bread_returns_last_stored {m0 : Machine} {s : CacheRun}
    {events : List CacheEvent} (hboot : initlog (boot d) = .ok () m0)
    (hexec : exec step (start d m0) events = some s) (dev b : ℕ) :
    (∀ i m', bread dev b s.machine = .ok i m' →
      (m'.buf i).data = lastStored d s.stores dev b ∧
      (s.SparesLog → s.machine.log.Beyond b →
        (m'.buf i).data = lastStored m0.disk s.callerStores dev b)) ∧
    (¬ BreadFails s.machine b →
      ∃ i m', bread rootdev b s.machine = .ok i m') := by
  obtain ⟨dirty, h⟩ := flat_of_exec hboot hexec
  constructor
  · intro i m' hbread
    by_cases hdev : dev = rootdev
    · subst hdev
      have hspec : Ensures (bread rootdev b) s.machine
          (fun i m' => (m'.buf i).data = lastStored d s.stores rootdev b)
          fun _ => True :=
        ensures_bread h.cached (fun _ _ hheld => hheld.data_eq)
          fun _ _ _ => trivial
      have hdata := hspec.of_ok hbread
      refine ⟨hdata, ?_⟩
      intro hspares hb
      rw [hdata, h.home hspares b hb]
    · exact ((ensures_bread_other h.cached hdev).of_ok hbread).elim
  · intro hok
    have hspec : Ensures (bread rootdev b) s.machine (fun _ _ => True)
        fun _ => False :=
      ensures_bread h.cached (fun _ _ _ => trivial) fun _ _ hfails => hok hfails
    obtain ⟨i, m', hrun, _⟩ := hspec.total
    exact ⟨i, m', hrun⟩

/-- Block 100 is changed and committed, and 29 other blocks are read before it
is read again. -/
def evictingRun : List CacheEvent :=
  [.beginOp, .bread 1 100, .logWrite 2 fun _ _ => 7, .brelse 2, .endOp] ++
    ((List.finRange nbuf).drop 4 ++ [0, 3, 2]).zipIdx.flatMap fun (i, k) =>
      [.bread 1 (200 + k), .brelse i]

/-- No buffer has block 100 any more, and yet its change is read. -/
theorem evictingRun_reads_change :
    ∃ m0 s, initlog (boot formattedDisk) = .ok () m0 ∧
      exec step (start formattedDisk m0) evictingRun = some s ∧
      (∀ i, (s.machine.buf i).blockno ≠ 100) ∧
      ∃ i m', bread 1 100 s.machine = .ok i m' ∧ (m'.buf i).data 0 = 7 := by
  have hrun : (match initlog (boot formattedDisk) with
      | .ok _ m0 => (exec step (start formattedDisk m0) evictingRun).any fun s =>
          decide (∀ i, (s.machine.buf i).blockno ≠ 100) &&
          decide (lastStored formattedDisk s.stores 1 100 0 = 7) &&
          match bread 1 100 s.machine with
          | .ok _ _ => true
          | .error _ _ => false
      | .error _ _ => false) = true := by
    decide +kernel
  split at hrun
  next m0 hboot =>
    obtain ⟨s, hexec, htest⟩ := exec_of_any hrun
    simp only [Bool.and_eq_true, decide_eq_true_eq] at htest
    obtain ⟨⟨hgone, hlast⟩, hbread⟩ := htest
    split at hbread
    next i m' hok =>
      refine ⟨m0, s, hboot, hexec, hgone, i, m', hok, ?_⟩
      rw [((bread_returns_last_stored hboot hexec 1 100).1 i m' hok).1]
      exact hlast
    next => contradiction
  next => contradiction

end CacheRun

end Xv6Kernel
