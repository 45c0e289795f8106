import Xv6Kernel.LogFormat
import Mathlib.Data.List.GetD

/-!
# Commit

Every single disk write of `commit` leaves a disk from which recovery produces
the contents after some number of groups, and the number changes only when the
header of a group is written.
-/

namespace Xv6Kernel

open TraceExecution StateHoare RedoLog Function List

/-! ## Copying a block and writing the header -/

def Ready (m : Machine) (b : ℕ) : Prop :=
  (∀ i, (m.buf i).refcnt = 0 ∧ (m.buf i).dirty = false) ∧ b < fssize

theorem not_breadFails_of_ready {m : Machine} {contents : ℕ → Block} {dirty : Set ℕ} {b : ℕ}
    (hcached : Cached m contents dirty) (hready : Ready m b) : ¬ BreadFails m b := by
  rintro (⟨i, _, _, hlocked⟩ | hused | hrange)
  · have hpos := hcached.refcnt i hlocked
    have hzero := (hready.1 i).1
    omega
  · have hzero := hready.1 0
    rcases hused 0 with hrefcnt | hdirty
    · exact hrefcnt hzero.1
    · rw [hzero.2] at hdirty
      contradiction
  · have hlt := hready.2
    omega

theorem not_breadFails_of_acquired {m m' : Machine} {contents : ℕ → Block} {dirty : Set ℕ}
    {i : Fin nbuf} {b b' : ℕ} (hacquired : Acquired m m' contents dirty i b) (hready : Ready m b')
    (hne : b' ≠ b) : ¬ BreadFails m' b' := by
  rintro (⟨j, _, hblockno, hlocked⟩ | hused | hrange)
  · by_cases hj : j = i
    · subst j
      exact hne (hblockno.symm.trans hacquired.holds.blockno)
    · have hpos := hacquired.cached.refcnt j hlocked
      rw [hacquired.others j hj] at hpos
      have hzero := (hready.1 j).1
      omega
  · obtain ⟨j, hj⟩ : ∃ j : Fin nbuf, j ≠ i := by
      by_cases hi : i = 0
      · exact ⟨1, by simp [hi]⟩
      · exact ⟨0, Ne.symm hi⟩
    have hzero := hready.1 j
    have hany := hused j
    rw [hacquired.others j hj] at hany
    rcases hany with hrefcnt | hdirty
    · exact hrefcnt hzero.1
    · rw [hzero.2] at hdirty
      contradiction
  · have hlt := hready.2
    omega

structure Stored (m m' : Machine) (contents : ℕ → Block) (dirty : Set ℕ)
    (b : ℕ) (data : Block) : Prop where
  cached : Cached m' (Function.update contents b data) (dirty \ {b})
  disk : m'.disk = Function.update m.disk b data
  writes : m'.writes = m.writes ++ [(b, data)]
  log : m'.log = m.log
  refcnt : ∀ i, (m'.buf i).refcnt = (m.buf i).refcnt

section Copy

variable {m : Machine} {contents : ℕ → Block} {dirty : Set ℕ} {src dst : ℕ}
variable {Q : PUnit → Machine → Prop} {E : Machine → Prop}

theorem ensures_copyHeld {m' : Machine} {s t : Fin nbuf} (hcached : Cached m' contents dirty)
    (hsame : SameDisk m m') (hsrc : Holds m' s src) (hdst : Holds m' t dst) (hne : src ≠ dst)
    (hrefcnt : ∀ i, (m'.buf i).refcnt = (m.buf i).refcnt + if i = s ∨ i = t then 1 else 0)
    (hok : ∀ m'', Stored m m'' contents dirty dst (contents src) → Q () m'') :
    Ensures (do
      let m ← get
      setBuf t fun b => { b with data := (m.buf s).data }
      bwrite t
      brelse s
      brelse t) m' Q E := by
  have hst : s ≠ t := by
    intro heq
    subst heq
    exact hne (hsrc.blockno.symm.trans hdst.blockno)
  have hdata : (m'.buf s).data = contents src := by
    rw [(hcached.data s hsrc.valid).2.2, hsrc.blockno]
  simp only [ensures_bind, ensures_get, ensures_setBuf, hdata]
  apply ensures_bwrite hcached hdst
  intro m1 hwritten
  apply ensures_brelse hwritten.cached (hsrc.of_buf_eq (hwritten.others s hst))
  intro m2 hsrcFree
  apply ensures_brelse hsrcFree.cached (hwritten.holds.of_buf_eq (hsrcFree.others t (Ne.symm hst)))
  intro m3 hdstFree
  apply hok
  constructor
  · exact hdstFree.cached
  · rw [hdstFree.same.disk, hsrcFree.same.disk, hwritten.disk, hsame.disk]
  · rw [hdstFree.same.writes, hsrcFree.same.writes, hwritten.writes, hsame.writes]
  · rw [hdstFree.same.log, hsrcFree.same.log, hwritten.log, hsame.log]
  · intro i
    have hcount := hrefcnt i
    by_cases hit : i = t
    · subst i
      rw [hdstFree.buf, hsrcFree.others t (Ne.symm hst)]
      simp only [hwritten.refcnt]
      simp only [or_true, if_true] at hcount
      omega
    · rw [hdstFree.others i hit]
      by_cases his : i = s
      · subst i
        rw [hsrcFree.buf]
        simp only [hwritten.others s hst]
        simp only [true_or, if_true] at hcount
        omega
      · rw [hsrcFree.others i his, hwritten.others i hit, hcount]
        simp [his, hit]

theorem ensures_writeLogOne {tail : ℕ} (hcached : Cached m contents dirty)
    (hsrc : m.log.block.getD tail 0 = src) (hdst : m.log.start + tail + 1 = dst) (hne : src ≠ dst)
    (hok : ∀ m', Stored m m' contents dirty dst (contents src) → Q () m')
    (hfail : ∀ m', SameDisk m m' → E m') : Ensures (writeLogOne tail) m Q E := by
  rw [writeLogOne, ensures_bind, ensures_get, hdst, hsrc, ensures_bind]
  apply ensures_bread hcached
  · intro t m1 hto
    rw [ensures_bind]
    apply ensures_bread hto.cached
    · intro s m2 hfrom
      have hts : t ≠ s := by
        intro heq
        subst heq
        have hfree := hfrom.free
        rw [hto.holds.locked] at hfree
        contradiction
      apply ensures_copyHeld hfrom.cached (hto.same.trans hfrom.same)
        hfrom.holds (hto.holds.of_buf_eq (hfrom.others t hts)) hne _ hok
      intro i
      by_cases his : i = s
      · subst i
        rw [hfrom.refcnt, hto.others s (Ne.symm hts)]
        simp
      · rw [hfrom.others i his]
        by_cases hit : i = t
        · subst i
          rw [hto.refcnt]
          simp
        · rw [hto.others i hit]
          simp [his, hit]
    · intro m' hsame _
      exact hfail m' (hto.same.trans hsame)
  · intro m' hsame _
    exact hfail m' hsame

theorem ensures_installOne {tail : ℕ} (hcached : Cached m contents dirty)
    (hsrc : m.log.start + tail + 1 = src) (hdst : m.log.block.getD tail 0 = dst) (hne : src ≠ dst)
    (hok : ∀ m', Stored m m' contents dirty dst (contents src) → Q () m')
    (hfail : ∀ m', SameDisk m m' → ¬ (Ready m src ∧ Ready m dst) → E m') :
    Ensures (installOne tail) m Q E := by
  rw [installOne, ensures_bind, ensures_get, hdst, hsrc, ensures_bind]
  apply ensures_bread hcached
  · intro s m1 hfrom
    rw [ensures_bind]
    apply ensures_bread hfrom.cached
    · intro t m2 hto
      have hst : s ≠ t := by
        intro heq
        subst heq
        have hfree := hto.free
        rw [hfrom.holds.locked] at hfree
        contradiction
      apply ensures_copyHeld hto.cached (hfrom.same.trans hto.same)
        (hfrom.holds.of_buf_eq (hto.others s hst)) hto.holds hne _ hok
      intro i
      by_cases hit : i = t
      · subst i
        rw [hto.refcnt, hfrom.others t (Ne.symm hst)]
        simp
      · rw [hto.others i hit]
        by_cases his : i = s
        · subst i
          rw [hfrom.refcnt]
          simp
        · rw [hfrom.others i his]
          simp [his, hit]
    · intro m' hsame hfails
      apply hfail m' (hfrom.same.trans hsame)
      rintro ⟨_, hready⟩
      exact not_breadFails_of_acquired hfrom hready (Ne.symm hne) hfails
  · intro m' hsame hfails
    apply hfail m' hsame
    rintro ⟨hready, _⟩
    exact not_breadFails_of_ready hcached hready hfails

theorem ensures_writeHead (hcached : Cached m contents dirty)
    (hok : ∀ m', Stored m m' contents dirty m.log.start
      (encodeHeader m.log.block (contents m.log.start)) → Q () m')
    (hfail : ∀ m', SameDisk m m' → ¬ Ready m m.log.start → E m') :
    Ensures writeHead m Q E := by
  rw [writeHead, ensures_bind, ensures_get, ensures_bind]
  apply ensures_bread hcached
  · intro i m1 hheld
    have hdata : (m1.buf i).data = contents m.log.start := by
      rw [(hheld.cached.data i hheld.holds.valid).2.2, hheld.holds.blockno]
    simp only [ensures_bind, ensures_get, ensures_setBuf, hdata, hheld.same.log]
    apply ensures_bwrite hheld.cached hheld.holds
    intro m2 hwritten
    apply ensures_brelse hwritten.cached hwritten.holds
    intro m3 hfree
    apply hok
    constructor
    · exact hfree.cached
    · rw [hfree.same.disk, hwritten.disk, hheld.same.disk]
    · rw [hfree.same.writes, hwritten.writes, hheld.same.writes]
    · rw [hfree.same.log, hwritten.log, hheld.same.log]
    · intro j
      by_cases hj : j = i
      · subst j
        rw [hfree.buf]
        simp [hwritten.refcnt, hheld.refcnt]
      · rw [hfree.others j hj, hwritten.others j hj, hheld.others j hj]
  · intro m' hsame hfails
    apply hfail m' hsame
    intro hready
    exact not_breadFails_of_ready hcached hready hfails

end Copy

/-! ## Runs that are safe wherever they stop -/

def commitCount (start : ℕ) (writes : List (ℕ × Block)) : ℕ :=
  writes.countP fun write => write.1 = start ∧ headerBlocks write.2 ≠ []

theorem commitCount_concat_of_ne {start b : ℕ} (writes : List (ℕ × Block)) (data : Block)
    (hb : b ≠ start) : commitCount start (writes ++ [(b, data)]) = commitCount start writes := by
  simp [commitCount, hb]

theorem commitCount_concat_erase (start : ℕ) (writes : List (ℕ × Block))
    {data : Block} (hempty : headerBlocks data = []) :
    commitCount start (writes ++ [(start, data)]) = commitCount start writes := by
  simp [commitCount, hempty]

theorem commitCount_concat_commit (start : ℕ) (writes : List (ℕ × Block))
    {data : Block} (hblocks : headerBlocks data ≠ []) :
    commitCount start (writes ++ [(start, data)]) =
      commitCount start writes + 1 := by
  simp [commitCount, hblocks]

/-- Wherever power fails, the disk is one from which recovery produces the
contents after the groups whose header has been written, of which there are at
most `limit`. -/
structure CrashSafe (start slots limit : ℕ) (d : ℕ → Block)
    (stage : ℕ → ℕ → Block) (m : Machine) : Prop where
  disk : m.disk = applyWrites d m.writes
  count : commitCount start m.writes ≤ limit
  always : EveryPrefix (fun writes => Recoverable start slots
    (applyWrites d writes) (stage (commitCount start writes))) m.writes

section Safe

variable {start slots limit b : ℕ} {d : ℕ → Block} {stage : ℕ → ℕ → Block} {E : Machine → Prop}
  {data : Block}
variable {m m' : Machine} {contents : ℕ → Block} {dirty : Set ℕ}

section

variable (hsafe : CrashSafe start slots limit d stage m)

include hsafe

theorem CrashSafe.now : Recoverable start slots m.disk (stage (commitCount start m.writes)) := by
  rw [hsafe.disk]
  exact hsafe.always.last

theorem CrashSafe.of_same (hdisk : m'.disk = m.disk)
    (hwrites : m'.writes = m.writes) : CrashSafe start slots limit d stage m' := by
  constructor
  · rw [hdisk, hwrites]
    exact hsafe.disk
  · rw [hwrites]
    exact hsafe.count
  · rw [hwrites]
    exact hsafe.always

theorem CrashSafe.stored
    (hstored : Stored m m' contents dirty b data) {n : ℕ} (hcount : commitCount start m'.writes = n)
    (hlimit : n ≤ limit) (hrec : Recoverable start slots (update m.disk b data) (stage n)) :
    CrashSafe start slots limit d stage m' := by
  constructor
  · rw [hstored.disk, hstored.writes, applyWrites_concat, hsafe.disk]
  · rw [hcount]
    exact hlimit
  · rw [hstored.writes] at hcount ⊢
    apply hsafe.always.concat
    rw [applyWrites_concat, ← hsafe.disk, hcount]
    exact hrec

end

/-! ### `write_log` -/

/-- After `n` rounds of `write_log`. -/
structure LogFilled (start slots limit : ℕ) (d : ℕ → Block)
    (stage : ℕ → ℕ → Block) (m : Machine) (contents : ℕ → Block) (dirty : Set ℕ) (n : ℕ)
    (m' : Machine) (contents' : ℕ → Block) : Prop where
  cached : Cached m' contents' dirty
  safe : CrashSafe start slots limit d stage m'
  log : m'.log = m.log
  count : commitCount start m'.writes = commitCount start m.writes
  empty : (logLayout start slots).logged m'.disk = []
  filled : ∀ i, i < n → contents' (start + i + 1) =
    contents (m.log.block.getD i 0)
  rest : ∀ b, b = start ∨ (logLayout start slots).Home b →
    contents' b = contents b

theorem ensures_writeLog (hcached : Cached m contents dirty)
    (hsafe : CrashSafe start slots limit d stage m) (hstart : m.log.start = start)
    (hblock : Loggable start slots m.log.block)
    (hempty : (logLayout start slots).logged m.disk = [])
    (hdirty : ∀ b ∈ dirty, (logLayout start slots).Home b) :
    Ensures writeLog m
      (fun _ m' => ∃ contents', LogFilled start slots limit d stage m contents dirty
        m.log.block.length m' contents')
      (CrashSafe start slots limit d stage) := by
  rw [writeLog, ensures_bind, ensures_get]
  apply ensures_forM_range (fun n m' => ∃ contents',
    LogFilled start slots limit d stage m contents dirty n m' contents')
  · exact ⟨contents, hcached, hsafe, rfl, rfl, hempty, by simp, by simp⟩
  · rintro n m1 hn ⟨c1, hfilled⟩
    have hslot : n < slots := lt_of_lt_of_le hn hblock.fits.length
    have hsrc : m1.log.block.getD n 0 = m.log.block[n] := by
      rw [hfilled.log, getD_eq_getElem _ _ hn]
    have hhome := hblock.fits.home _ (getElem_mem hn)
    have hdst : m1.log.start + n + 1 = start + n + 1 := by
      rw [hfilled.log, hstart]
    apply ensures_writeLogOne hfilled.cached hsrc hdst (hhome.2 n hslot)
    · intro m2 hstored
      have hrec := hfilled.safe.now
      rw [hfilled.count] at hrec
      have hcount : commitCount start m2.writes = commitCount start m.writes := by
        rw [hstored.writes, commitCount_concat_of_ne _ _ (by omega), hfilled.count]
      refine ⟨update c1 (start + n + 1) (c1 m.log.block[n]), ?_⟩
      constructor
      case cached =>
        have hclean : dirty \ {start + n + 1} = dirty := by
          ext b
          simp only [Set.mem_sdiff, Set.mem_singleton_iff, and_iff_left_iff_imp]
          intro hb
          exact (hdirty b hb).2 n hslot
        have hcached' := hstored.cached
        rw [hclean] at hcached'
        exact hcached'
      case safe =>
        exact hfilled.safe.stored hstored hcount hsafe.count (hrec.fill hslot hfilled.empty)
      case log => rw [hstored.log, hfilled.log]
      case count => exact hcount
      case empty =>
        rw [hstored.disk]
        exact (Layout.logged_update_of_ne
          ((logLayout_separate start slots).header n hslot)).trans hfilled.empty
      case filled =>
        intro i hi
        by_cases hin : i = n
        · subst i
          rw [update_self, hfilled.rest _ (Or.inr hhome), getD_eq_getElem _ _ hn]
        · rw [update_of_ne (by omega)]
          exact hfilled.filled i (by omega)
      case rest =>
        intro b hb
        have hne : b ≠ start + n + 1 := by
          rcases hb with rfl | hb
          · omega
          · exact hb.2 n hslot
        rw [update_of_ne hne]
        exact hfilled.rest b hb
    · intro m2 hsame
      exact hfilled.safe.of_same hsame.disk hsame.writes

/-! ### `install_trans` -/

def Quiet (m : Machine) (dirty : Set ℕ) : Prop :=
  dirty = ∅ ∧ ∀ i, (m.buf i).refcnt = 0

theorem Cached.ready (hcached : Cached m contents dirty)
    (hquiet : Quiet m dirty) (hb : b < fssize) : Ready m b := by
  refine ⟨?_, hb⟩
  intro i
  refine ⟨hquiet.2 i, ?_⟩
  by_contra hdirty
  have hmem := (hcached.valid i (by simpa using hdirty)).2
  rw [hquiet.1] at hmem
  exact hmem

/-- After `n` rounds of `install_trans`. -/
structure Installed (start slots limit : ℕ) (d : ℕ → Block)
    (stage : ℕ → ℕ → Block) (m : Machine) (contents : ℕ → Block) (dirty : Set ℕ) (n : ℕ)
    (m' : Machine) (contents' : ℕ → Block) : Prop where
  cached : Cached m' contents' (dirty \ {b | b ∈ m.log.block.take n})
  safe : CrashSafe start slots limit d stage m'
  log : m'.log = m.log
  count : commitCount start m'.writes = commitCount start m.writes
  logged : (logLayout start slots).logged m'.disk = m.log.block
  installed : ∀ i, i < n → contents' (m.log.block.getD i 0) =
    contents (start + i + 1)
  rest : ∀ b, b ∉ m.log.block → contents' b = contents b
  refcnt : ∀ i, (m'.buf i).refcnt = (m.buf i).refcnt

theorem ensures_installTrans (hcached : Cached m contents dirty)
    (hsafe : CrashSafe start slots limit d stage m) (hstart : m.log.start = start)
    (hlogged : (logLayout start slots).logged m.disk = m.log.block)
    (hfail : ∀ m', CrashSafe start slots limit d stage m' → ¬ Quiet m dirty → E m') :
    Ensures installTrans m
      (fun _ m' => ∃ contents', Installed start slots limit d stage m contents dirty
        m.log.block.length m' contents') E := by
  have hblock := hsafe.now.format.logged
  rw [hlogged] at hblock
  rw [installTrans, ensures_bind, ensures_get]
  apply ensures_forM_range (fun n m' => ∃ contents',
    Installed start slots limit d stage m contents dirty n m' contents')
  · refine ⟨contents, ?_, hsafe, rfl, rfl, hlogged, by simp, by simp, by simp⟩
    simpa using hcached
  · rintro n m1 hn ⟨c1, hinst⟩
    have hslot : n < slots := lt_of_lt_of_le hn hblock.fits.length
    have hmem := getElem_mem hn
    have hhome := hblock.fits.home _ hmem
    have hsrc : m1.log.start + n + 1 = start + n + 1 := by
      rw [hinst.log, hstart]
    have hdst : m1.log.block.getD n 0 = m.log.block[n] := by
      rw [hinst.log, getD_eq_getElem _ _ hn]
    have hnotLogged : start + n + 1 ∉ m.log.block := by
      intro hlog
      exact (hblock.fits.home _ hlog).2 n hslot rfl
    apply ensures_installOne hinst.cached hsrc hdst (Ne.symm (hhome.2 n hslot))
    · intro m2 hstored
      have hlength : n < ((logLayout start slots).logged m1.disk).length := by
        rw [hinst.logged]
        exact hn
      have hrec := hinst.safe.now.install (c1 (start + n + 1)) hlength
      simp only [hinst.logged] at hrec
      have hnotHeader : m.log.block[n] ≠ start := hhome.1
      have hcount : commitCount start m2.writes = commitCount start m1.writes := by
        rw [hstored.writes, commitCount_concat_of_ne _ _ hnotHeader]
      refine ⟨update c1 m.log.block[n] (c1 (start + n + 1)), ?_⟩
      constructor
      case cached =>
        have hset : (dirty \ {b | b ∈ m.log.block.take n}) \ {m.log.block[n]} =
            dirty \ {b | b ∈ m.log.block.take (n + 1)} := by
          ext b
          simp only [Set.mem_sdiff, Set.mem_ofPred_eq, Set.mem_singleton_iff,
            take_succ_eq_append_getElem hn, mem_append, mem_singleton, not_or, and_assoc]
        have hcached' := hstored.cached
        rw [hset] at hcached'
        exact hcached'
      case safe =>
        exact hinst.safe.stored hstored hcount hinst.safe.count hrec
      case log => rw [hstored.log, hinst.log]
      case count => exact hcount.trans hinst.count
      case logged =>
        rw [hstored.disk, Layout.logged_update_of_ne hhome.1, hinst.logged]
      case installed =>
        intro i hi
        by_cases hin : i = n
        · subst i
          rw [getD_eq_getElem _ _ hn, update_self]
          exact hinst.rest _ hnotLogged
        · have hi' : i < m.log.block.length := by omega
          have hne : m.log.block.getD i 0 ≠ m.log.block[n] := by
            rw [getD_eq_getElem _ _ hi']
            intro heq
            exact hin ((List.Nodup.getElem_inj_iff hblock.fits.nodup).mp heq)
          rw [update_of_ne hne]
          exact hinst.installed i (by omega)
      case rest =>
        intro b hb
        have hne : b ≠ m.log.block[n] := by
          intro heq
          exact hb (heq ▸ hmem)
        rw [update_of_ne hne]
        exact hinst.rest b hb
      case refcnt =>
        intro i
        rw [hstored.refcnt i, hinst.refcnt i]
    · intro m2 hsame hready
      apply hfail m2 (hinst.safe.of_same hsame.disk hsame.writes)
      intro hquiet
      have hquiet' : Quiet m1 (dirty \ {b | b ∈ m.log.block.take n}) := by
        refine ⟨by simp [hquiet.1], ?_⟩
        intro i
        rw [hinst.refcnt i, hquiet.2 i]
      have hsize := hsafe.now.format.size
      apply hready
      constructor
      · exact hinst.cached.ready hquiet' (by omega)
      · exact hinst.cached.ready hquiet' (hblock.range _ hmem)

/-! ### Installing and erasing, the end of `commit` and `recover_from_log` -/

@[simp] theorem ensures_setLog {f : Log → Log} {Q : PUnit → Machine → Prop}
    :
    Ensures (setLog f) m Q E ↔ Q () { m with log := f m.log } := Iff.rfl

theorem Cached.of_log (hcached : Cached m contents dirty) (log : Log) :
    Cached { m with log := log } contents dirty :=
  ⟨hcached.lru, hcached.unique, hcached.data, hcached.valid, hcached.pinned,
    hcached.clean, hcached.refcnt⟩

/-- The log is empty, and the home blocks are those of the stage reached. -/
structure Settled (start slots limit : ℕ) (d : ℕ → Block)
    (stage : ℕ → ℕ → Block) (m : Machine) (contents : ℕ → Block) : Prop where
  cached : Cached m contents ∅
  safe : CrashSafe start slots limit d stage m
  block : m.log.block = []
  empty : (logLayout start slots).logged m.disk = []
  home : ∀ b, (logLayout start slots).Home b →
    contents b = stage (commitCount start m.writes) b

theorem Installed.home {m1 : Machine} {c1 : ℕ → Block}
    (hinst : Installed start slots limit d stage m contents dirty m.log.block.length m1 c1)
    (hcached : Cached m contents dirty) (hsafe : CrashSafe start slots limit d stage m)
    (hlogged : (logLayout start slots).logged m.disk = m.log.block)
    (hdirty : ∀ b ∈ dirty, b ∈ m.log.block) (hb : (logLayout start slots).Home b) :
    c1 b = stage (commitCount start m.writes) b := by
  have hblock := hsafe.now.format.logged
  rw [hlogged] at hblock
  rw [← hsafe.now.view b hb]
  by_cases hmem : b ∈ m.log.block
  · obtain ⟨i, hi, rfl⟩ := getElem_of_mem hmem
    have hclean : start + i + 1 ∉ dirty := by
      intro hslot
      exact (hblock.fits.home _ (hdirty _ hslot)).2 i (lt_of_lt_of_le hi hblock.fits.length) rfl
    have hview := Layout.view_of_mem (L := logLayout start slots) (d := m.disk)
      (i := i) (by rw [hlogged]; exact hi) (by rw [hlogged]; exact hblock.fits.nodup)
    simp only [hlogged] at hview
    rw [hview]
    have hinstalled := hinst.installed i hi
    rw [getD_eq_getElem _ _ hi] at hinstalled
    rw [hinstalled]
    exact (hcached.clean _ hclean).symm
  · have hclean : b ∉ dirty := fun hb => hmem (hdirty b hb)
    rw [hinst.rest b hmem, ← hcached.clean b hclean]
    simp [Layout.view, hlogged, hmem]

theorem ensures_settle (hcached : Cached m contents dirty)
    (hsafe : CrashSafe start slots limit d stage m) (hstart : m.log.start = start)
    (hlogged : (logLayout start slots).logged m.disk = m.log.block)
    (hdirty : ∀ b ∈ dirty, b ∈ m.log.block)
    (hfail : ∀ m', CrashSafe start slots limit d stage m' → ¬ Quiet m dirty → E m') :
    Ensures (do
        installTrans
        setLog fun log => { log with block := [] }
        writeHead) m
      (fun _ m' => (∃ contents', Settled start slots limit d stage m' contents') ∧
        m'.log = { m.log with block := [] } ∧
        commitCount start m'.writes = commitCount start m.writes ∧
        ∀ i, (m'.buf i).refcnt = (m.buf i).refcnt) E := by
  rw [ensures_bind]
  refine (ensures_installTrans hcached hsafe hstart hlogged hfail).post ?_
  rintro _ m1 ⟨c1, hinst⟩
  have hnone : dirty \ {b | b ∈ m.log.block.take m.log.block.length} = ∅ := by
    rw [take_length]
    ext b
    simpa using hdirty b
  have hcached1 := hinst.cached
  rw [hnone] at hcached1
  rw [ensures_bind, ensures_setLog]
  have hlog1 : m1.log.start = start := by rw [hinst.log, hstart]
  apply ensures_writeHead (hcached1.of_log _)
  · intro m2 hhead
    simp only [hlog1] at hhead
    have hdata := headerBlocks_encodeHeader_nil (c1 start)
    have hcount : commitCount start m2.writes = commitCount start m1.writes := by
      rw [hhead.writes]
      exact commitCount_concat_erase _ _ hdata
    have hhome : ∀ b, (logLayout start slots).Home b →
        c1 b = stage (commitCount start m.writes) b :=
      fun b hb => hinst.home hcached hsafe hlogged hdirty hb
    have hrec : Recoverable start slots m2.disk
        (stage (commitCount start m2.writes)) := by
      rw [hhead.disk, hcount]
      apply hinst.safe.now.erase hdata
      intro b hb
      have hmem := hinst.safe.now.format.logged.fits.home b hb
      rw [hcached1.clean b (by simp), hinst.count]
      exact hhome b hmem
    refine ⟨⟨update c1 start (encodeHeader [] (c1 start)), ?_⟩, ?_, ?_, ?_⟩
    · constructor
      case cached => simpa using hhead.cached
      case safe =>
        refine CrashSafe.stored ?_ hhead hcount hinst.safe.count ?_
        · exact hinst.safe.of_same rfl rfl
        · rw [← hhead.disk, ← hcount]
          exact hrec
      case block => rw [hhead.log]
      case empty =>
        rw [hhead.disk]
        simpa [Layout.logged, logLayout] using hdata
      case home =>
        intro b hb
        have hne : b ≠ start := hb.1
        rw [update_of_ne hne, hcount, hinst.count]
        exact hhome b hb
    · rw [hhead.log]
      simp only [hinst.log, hstart]
    · rw [hcount, hinst.count]
    · intro i
      rw [hhead.refcnt i]
      exact hinst.refcnt i
  · intro m' hsame hready
    apply hfail m' (hinst.safe.of_same hsame.disk hsame.writes)
    intro hquiet
    apply hready
    have hsize := hsafe.now.format.size
    refine (hcached1.of_log _).ready ⟨rfl, ?_⟩ ?_
    · intro i
      exact (hinst.refcnt i).trans (hquiet.2 i)
    · simp only [hlog1]
      omega

/-! ### `commit` -/

theorem LogFilled.commit {m1 : Machine} {c1 : ℕ → Block} {n : ℕ}
    (hfilled : LogFilled start slots limit d stage m contents
      {b | b ∈ m.log.block} m.log.block.length m1 c1)
    (hblock : Loggable start slots m.log.block)
    (hstage : ∀ b, (logLayout start slots).Home b → stage n b = contents b)
    (hdata : headerBlocks data = m.log.block) :
    Recoverable start slots (update m1.disk start data) (stage n) := by
  apply hfilled.safe.now.format.commit
  · rw [hdata]
    exact hblock
  · intro i hi
    simp only [hdata] at hi ⊢
    have hmem := getElem_mem hi
    have hhome := hblock.fits.home _ hmem
    have hslot : start + i + 1 ∉ {b | b ∈ m.log.block} := by
      intro hlogged
      exact (hblock.fits.home _ hlogged).2 i (lt_of_lt_of_le hi hblock.fits.length) rfl
    rw [hfilled.cached.clean _ hslot, hfilled.filled i hi, getD_eq_getElem _ _ hi, hstage _ hhome]
  · intro b hb hnot
    rw [hdata] at hnot
    rw [hfilled.cached.clean b hnot, hfilled.rest b (Or.inr hb), hstage b hb]

theorem ensures_commit
    (hcached : Cached m contents {b | b ∈ m.log.block})
    (hsafe : CrashSafe start slots limit d stage m) (hstart : m.log.start = start)
    (hblock : Loggable start slots m.log.block) (hne : m.log.block ≠ [])
    (hempty : (logLayout start slots).logged m.disk = [])
    (hlimit : commitCount start m.writes + 1 ≤ limit)
    (hstage : ∀ b, (logLayout start slots).Home b →
      stage (commitCount start m.writes + 1) b = contents b) :
    Ensures commit m
      (fun _ m' => (∃ contents', Settled start slots limit d stage m' contents') ∧
        m'.log = { m.log with block := [] } ∧
        commitCount start m'.writes = commitCount start m.writes + 1)
      (CrashSafe start slots limit d stage) := by
  have hpos : 0 < m.log.block.length := length_pos_iff.mpr hne
  have hhome : ∀ b ∈ m.log.block, (logLayout start slots).Home b := hblock.fits.home
  rw [Xv6Kernel.commit, ensures_bind, ensures_get, if_pos hpos, ensures_bind]
  refine (ensures_writeLog hcached hsafe hstart hblock hempty hhome).post ?_
  rintro _ m1 ⟨c1, hfilled⟩
  have hlog1 : m1.log.start = start := by rw [hfilled.log, hstart]
  rw [ensures_bind]
  apply ensures_writeHead hfilled.cached
  · intro m2 hhead
    rw [hlog1, hfilled.log] at hhead
    have hdata := headerBlocks_encodeHeader (c1 start) hblock.length hblock.range
    have hcount : commitCount start m2.writes =
        commitCount start m.writes + 1 := by
      rw [hhead.writes, commitCount_concat_commit _ _ (by rw [hdata]; exact hne), hfilled.count]
    have hsafe2 : CrashSafe start slots limit d stage m2 :=
      hfilled.safe.stored hhead hcount hlimit
        (hfilled.commit hblock hstage hdata)
    have hlog2 : m2.log = m.log := by rw [hhead.log, hfilled.log]
    have hlogged2 : (logLayout start slots).logged m2.disk = m2.log.block := by
      rw [hlog2, hhead.disk]
      simpa [Layout.logged, logLayout] using hdata
    refine (ensures_settle hhead.cached hsafe2 (by rw [hlog2, hstart]) hlogged2
      ?_ fun _ hsafe _ => hsafe).post ?_
    · rintro b ⟨hb, _⟩
      rw [hlog2]
      exact hb
    · rintro _ m3 ⟨hsettled, hlog3, hcount3, _⟩
      exact ⟨hsettled, by rw [hlog3, hlog2], by rw [hcount3, hcount]⟩
  · intro m' hsame _
    exact hfilled.safe.of_same hsame.disk hsame.writes

end Safe

end Xv6Kernel
