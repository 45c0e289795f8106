import Xv6Kernel.LogCommit

/-!
# Recovery

After a boot, `initlog` finds the log where the superblock says, installs what
the header says and erases the header.  It cannot fail on a recoverable disk, it
may itself be cut short by a crash, any number of times, and when it completes
the home blocks are the ones the disk stood for.  A session of file system
operations that is cut short anywhere therefore leaves the contents after some
number of whole groups: those whose header write reached the disk.
-/

namespace Xv6Kernel

open TraceExecution StateHoare RedoLog

variable {start slots limit b : ℕ} {d : ℕ → Block} {stage : ℕ → ℕ → Block} {m : Machine}

theorem cached_boot (d : ℕ → Block) : Cached (boot d) d ∅ where
  lru := by simp [boot]
  unique := by simp [boot]
  data := by simp [boot]
  valid := by simp [boot]
  pinned := by simp
  clean := by simp [boot]
  refcnt := by simp [boot]

/-- The machine has only read from the disk and is quiet again. -/
structure OnlyRead (d : ℕ → Block) (m : Machine) : Prop where
  cached : Cached m d ∅
  disk : m.disk = d
  writes : m.writes = []
  refcnt : ∀ i, (m.buf i).refcnt = 0

theorem onlyRead_boot (d : ℕ → Block) : OnlyRead d (boot d) :=
  ⟨cached_boot d, rfl, rfl, fun _ => rfl⟩

theorem OnlyRead.ready (hread : OnlyRead d m) (hb : b < fssize) : ¬ BreadFails m b :=
  not_breadFails_of_ready hread.cached
    (hread.cached.ready ⟨rfl, hread.refcnt⟩ hb)

theorem OnlyRead.released {m' m'' : Machine} {i : Fin nbuf}
    {log : Log} (hread : OnlyRead d m) (hheld : Acquired m m' d ∅ i b)
    (hfree : Released { m' with log := log } m'' d ∅ i) : OnlyRead d m'' where
  cached := hfree.cached
  disk := by
    rw [hfree.same.disk]
    exact hheld.same.disk.trans hread.disk
  writes := by
    rw [hfree.same.writes]
    exact hheld.same.writes.trans hread.writes
  refcnt := by
    intro j
    by_cases hj : j = i
    · subst j
      have hcount := hheld.refcnt
      have hzero := hread.refcnt i
      rw [hfree.buf]
      simp only
      omega
    · rw [hfree.others j hj]
      exact (congrArg Buf.refcnt (hheld.others j hj)).trans (hread.refcnt j)

theorem Acquired.data_eq {m' : Machine} {contents : ℕ → Block} {dirty : Set ℕ} {i : Fin nbuf}
    (hheld : Acquired m m' contents dirty i b) : (m'.buf i).data = contents b := by
  rw [(hheld.cached.data i hheld.holds.valid).2.2, hheld.holds.blockno]

theorem ensures_readsb (hread : OnlyRead d m) :
    Ensures readsb m
      (fun sb m' => sb = ((wordAt (d 1) 3).toInt, (wordAt (d 1) 4).toNat) ∧
        OnlyRead d m' ∧ m'.log = m.log)
      fun _ => False := by
  rw [readsb, ensures_bind]
  apply ensures_bread hread.cached
  · intro i m1 hheld
    rw [ensures_bind, ensures_get, ensures_bind]
    apply ensures_brelse hheld.cached hheld.holds
    intro m2 hfree
    rw [ensures_pure, hheld.data_eq]
    exact ⟨rfl, hread.released hheld hfree, hfree.same.log.trans hheld.same.log⟩
  · intro _ _ hfails
    exact hread.ready (by simp) hfails

theorem ensures_readHead (hread : OnlyRead d m) (hstart : m.log.start < fssize) :
    Ensures readHead m
      (fun _ m' => OnlyRead d m' ∧
        m'.log = { m.log with block := headerBlocks (d m.log.start) })
      fun _ => False := by
  rw [readHead, ensures_bind, ensures_get, ensures_bind]
  apply ensures_bread hread.cached
  · intro i m1 hheld
    rw [ensures_bind, ensures_get, ensures_bind, ensures_setLog, hheld.data_eq, hheld.same.log]
    have hcached := hheld.cached.of_log { m.log with block := headerBlocks (d m.log.start) }
    apply ensures_brelse hcached (hheld.holds.of_buf_eq rfl)
    intro m2 hfree
    exact ⟨hread.released hheld hfree, hfree.same.log⟩
  · intro _ _ hfails
    exact hread.ready hstart hfails

theorem OnlyRead.crashSafe (hread : OnlyRead d m)
    (hrec : Recoverable start slots d (stage 0)) : CrashSafe start slots limit d stage m := by
  constructor
  · rw [hread.disk, hread.writes, applyWrites_nil]
  · rw [hread.writes]
    exact Nat.zero_le limit
  · rw [hread.writes]
    exact everyPrefix_nil hrec

theorem ensures_initlog (limit : ℕ) (stage : ℕ → ℕ → Block)
    (hrec : Recoverable start slots d (stage 0)) :
    Ensures initlog (boot d)
      (fun _ m => (∃ contents, Settled start slots limit d stage m contents) ∧
        m.log = ⟨start, slots + 1, 0, []⟩ ∧ commitCount start m.writes = 0)
      fun _ => False := by
  have hsize := hrec.format.size
  rw [initlog, ensures_bind]
  refine (ensures_readsb (onlyRead_boot d)).post ?_
  rintro _ m1 ⟨rfl, hread1, hlog1⟩
  simp only [hrec.format.nlog, hrec.format.logstart]
  rw [ensures_bind, ensures_setLog, recoverFromLog, ensures_bind]
  have hread2 : OnlyRead d { m1 with
      log := { m1.log with start := start, size := slots + 1 } } :=
    ⟨hread1.cached.of_log _, hread1.disk, hread1.writes, hread1.refcnt⟩
  refine (ensures_readHead hread2 (by simp only; omega)).post ?_
  rintro _ m3 ⟨hread3, hlog3⟩
  have hlogged : (logLayout start slots).logged m3.disk = m3.log.block := by
    rw [hlog3, hread3.disk]
    rfl
  have hsafe3 : CrashSafe start slots limit d stage m3 := hread3.crashSafe hrec
  refine (ensures_settle hread3.cached hsafe3 (by rw [hlog3]) hlogged (by simp) ?_).post ?_
  · intro _ _ hquiet
    exact hquiet ⟨rfl, hread3.refcnt⟩
  · rintro _ m4 ⟨hsettled, hlog4, hcount4, _⟩
    refine ⟨hsettled, ?_, ?_⟩
    · rw [hlog4, hlog3]
      simp only [hlog1]
      rfl
    · rw [hcount4, hread3.writes]
      rfl

end Xv6Kernel
