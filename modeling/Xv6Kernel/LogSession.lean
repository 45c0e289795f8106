import Xv6Kernel.LogRecovery

/-!
# Crash atomicity

The events of a session fall into groups: the modifications logged between two
commits.  At every moment the cache holds the contents after the committed
groups and the modifications of the group that is still open, while the disk,
wherever the power fails, is one from which recovery produces the contents after
the groups whose header has been written.
-/

namespace Xv6Kernel

open TraceExecution StateHoare RedoLog Function List

/-- The modifications of a group, in the order in which they are made. -/
abbrev Group := List (ℕ × (Block → Block))

def applyGroup (contents : ℕ → Block) (group : Group) : ℕ → Block :=
  group.foldl (fun c change => Function.update c change.1 (change.2 (c change.1)))
    contents

def contentsAfter (contents : ℕ → Block) (groups : List Group) : ℕ → Block :=
  groups.foldl applyGroup contents

/-- The groups that have ended, the one that is open, and the number of
operations in it that have not ended. -/
structure History where
  closed : List Group
  current : Group
  outstanding : ℤ

def History.record (h : History) : FsEvent → History
  | .beginOp => { h with outstanding := h.outstanding + 1 }
  | .hold _ => h
  | .update b f => { h with current := h.current ++ [(b, f)] }
  | .drop _ => h
  | .endOp =>
      if h.outstanding - 1 = 0 ∧ h.current ≠ [] then
        { closed := h.closed ++ [h.current], current := [], outstanding := 0 }
      else { h with outstanding := h.outstanding - 1 }

def historyOf (events : List FsEvent) : History :=
  events.foldl History.record { closed := [], current := [], outstanding := 0 }

def groupsOf (events : List FsEvent) : List Group := (historyOf events).closed

theorem applyGroup_concat (contents : ℕ → Block) (group : Group) (b : ℕ) (f : Block → Block) :
    applyGroup contents (group ++ [(b, f)]) =
      update (applyGroup contents group) b
        (f (applyGroup contents group b)) := by
  simp [applyGroup]

theorem historyOf_concat (done : List FsEvent) (event : FsEvent) :
    historyOf (done ++ [event]) = (historyOf done).record event := by
  simp [historyOf]

theorem closed_append (done rest : List FsEvent) :
    ∃ later, groupsOf (done ++ rest) = groupsOf done ++ later := by
  induction rest using reverseRecOn with
  | nil => exact ⟨[], by simp⟩
  | append_singleton rest event ih =>
    obtain ⟨later, hlater⟩ := ih
    unfold groupsOf at hlater ⊢
    rw [← append_assoc, historyOf_concat]
    cases event with
    | endOp =>
      simp only [History.record]
      split
      · exact ⟨later ++ [(historyOf (done ++ rest)).current], by simp [hlater]⟩
      · exact ⟨later, hlater⟩
    | _ => exact ⟨later, hlater⟩

/-! ## One event -/

structure SessionInv (start slots limit : ℕ) (d : ℕ → Block)
    (stage : ℕ → ℕ → Block) (h : History) (m : Machine) (contents : ℕ → Block) :
    Prop where
  cached : Cached m contents {b | b ∈ m.log.block}
  safe : CrashSafe start slots limit d stage m
  log : m.log = ⟨start, slots + 1, h.outstanding, m.log.block⟩
  loggable : Loggable start slots m.log.block
  current : m.log.block = [] ↔ h.current = []
  empty : (logLayout start slots).logged m.disk = []
  count : commitCount start m.writes = h.closed.length
  home : ∀ b, (logLayout start slots).Home b →
    contents b = applyGroup (stage h.closed.length) h.current b

variable {start slots limit b : ℕ} {d : ℕ → Block} {stage : ℕ → ℕ → Block} {i : Fin nbuf}
  {events : List FsEvent}
variable {h : History} {m m' : Machine} {contents : ℕ → Block}

theorem SessionInv.of_same (hinv : SessionInv start slots limit d stage h m contents)
    (hcached : Cached m' contents {b | b ∈ m.log.block}) (hsame : SameDisk m m') :
    SessionInv start slots limit d stage h m' contents where
  cached := by
    rw [hsame.log]
    exact hcached
  safe := hinv.safe.of_same hsame.disk hsame.writes
  log := by
    rw [hsame.log]
    exact hinv.log
  loggable := by
    rw [hsame.log]
    exact hinv.loggable
  current := by
    rw [hsame.log]
    exact hinv.current
  empty := by
    rw [hsame.disk]
    exact hinv.empty
  count := by
    rw [hsame.writes]
    exact hinv.count
  home := hinv.home

theorem SessionInv.of_outstanding {n : ℤ}
    (hinv : SessionInv start slots limit d stage h m contents) :
    SessionInv start slots limit d stage { h with outstanding := n }
      { m with log := { m.log with outstanding := n } } contents where
  cached := hinv.cached.of_log _
  safe := hinv.safe.of_same rfl rfl
  log := by
    rw [hinv.log]
  loggable := hinv.loggable
  current := hinv.current
  empty := hinv.empty
  count := hinv.count
  home := hinv.home

theorem heldBuf_holds (hheld : m.heldBuf b = some i) : Holds m i b := by
  have hi := find?_some hheld
  simp only [decide_eq_true_eq] at hi
  exact ⟨hi.1, hi.2.1, hi.2.2.1, hi.2.2.2⟩

theorem Loggable.absorb {block : List ℕ} (hblock : Loggable start slots block)
    (hroom : block.length < logSize ∧ block.length < slots) (hhome : (logLayout start slots).Home b)
    (hrange : b < fssize) (hb : b ≠ 1) : Loggable start slots (Xv6Kernel.absorb block b) := by
  have hlength := absorb_length_le_succ block b
  constructor
  case fits =>
    refine ⟨absorb_nodup hblock.fits.nodup b, ?_, ?_⟩
    · intro x hx
      rcases mem_absorb.mp hx with hx | rfl
      · exact hblock.fits.home x hx
      · exact hhome
    · exact le_trans hlength hroom.2
  case length => exact le_trans hlength hroom.1
  case range =>
    intro x hx
    rcases mem_absorb.mp hx with hx | rfl
    · exact hblock.range x hx
    · exact hrange
  case superblock =>
    intro hone
    rcases mem_absorb.mp hone with hone | hone
    · exact hblock.superblock hone
    · exact hb hone.symm

def Machine.modified (m : Machine) (i : Fin nbuf) (b : ℕ) (data : Block) : Machine :=
  { m.setBuf i { m.buf i with data := data, dirty := true } with
    log := { m.log with block := absorb m.log.block b } }

theorem Cached.modified {dirty : Set ℕ}
    (hcached : Cached m contents dirty) (hholds : Holds m i b) (data : Block) :
    Cached (m.modified i b data) (update contents b data)
      (insert b dirty) := by
  apply hcached.refill hholds data true
  · simp [Machine.modified, hholds.valid]
  · intro j hji
    simp [Machine.modified, setBuf_of_ne hji]
  · rfl
  · intro x _
    rfl
  · simp
  · intro x hxb
    simp [hxb]
  · simp

section

variable (hinv : SessionInv start slots limit d stage h m contents)

include hinv

theorem SessionInv.modified {f : Block → Block} (hholds : Holds m i b)
    (hroom : m.log.block.length < logSize ∧ m.log.block.length < slots)
    (hhome : (logLayout start slots).Home b) (hb : b ≠ 1) :
    SessionInv start slots limit d stage (h.record (.update b f))
      (m.modified i b (f (m.buf i).data))
      (update contents b (f (contents b))) := by
  have hbuf := hinv.cached.data i hholds.valid
  have hdata : (m.buf i).data = contents b := by
    rw [hbuf.2.2, hholds.blockno]
  have hrange : b < fssize := by
    rw [← hholds.blockno]
    exact hbuf.2.1
  constructor
  case cached =>
    have hset : {x | x ∈ absorb m.log.block b} = insert b {x | x ∈ m.log.block} := by
      ext x
      simp only [Set.mem_ofPred_eq, Set.mem_insert_iff, mem_absorb]
      exact or_comm
    have hcached := hinv.cached.modified hholds (f (m.buf i).data)
    rw [← hset, hdata] at hcached
    rw [hdata]
    exact hcached
  case safe => exact hinv.safe.of_same rfl rfl
  case log =>
    simp only [Machine.modified, History.record]
    rw [hinv.log]
  case loggable => exact hinv.loggable.absorb hroom hhome hrange hb
  case current =>
    have hne : absorb m.log.block b ≠ [] := ne_nil_of_mem (mem_absorb.mpr (Or.inr rfl))
    simp [Machine.modified, History.record, hne]
  case empty => exact hinv.empty
  case count => exact hinv.count
  case home =>
    intro x hx
    simp only [History.record, applyGroup_concat]
    by_cases hxb : x = b
    · rw [hxb, update_self, update_self, hinv.home b hhome]
    · rw [update_of_ne hxb, update_of_ne hxb]
      exact hinv.home x hx

theorem ensures_hold :
    Ensures (runEvent (.hold b)) m
      (fun _ m' => SessionInv start slots limit d stage h m' contents)
      (CrashSafe start slots limit d stage) := by
  rw [runEvent, ensures_bind]
  apply ensures_bread hinv.cached
  · intro i m' hheld
    exact hinv.of_same hheld.cached hheld.same
  · intro m' hsame _
    exact hinv.safe.of_same hsame.disk hsame.writes

theorem ensures_update {f : Block → Block} (hhome : (logLayout start slots).Home b) (hb : b ≠ 1) :
    Ensures (runEvent (.update b f)) m
      (fun _ m' => SessionInv start slots limit d stage (h.record (.update b f))
        m' (update contents b (f (contents b))))
      (CrashSafe start slots limit d stage) := by
  rw [runEvent, ensures_bind, ensures_get]
  cases hfind : m.heldBuf b with
  | none => exact hinv.safe
  | some i =>
    have hholds := heldBuf_holds hfind
    simp only [logWrite, ensures_bind, ensures_setBuf, ensures_check,
      ensures_get, ensures_setLog, setBuf_self, setBuf_log, hholds.blockno]
    split
    next hroom =>
      have hsize : m.log.size = slots + 1 := by rw [hinv.log]
      have hroom' : m.log.block.length < logSize ∧
          m.log.block.length < slots := by
        simp only [decide_eq_true_eq, not_or, not_le, hsize] at hroom
        omega
      split
      · have hpost := hinv.modified (f := f) hholds hroom' hhome hb
        simpa [Machine.modified, Machine.setBuf, hholds.blockno] using hpost
      · exact hinv.safe.of_same rfl rfl
    next => exact hinv.safe.of_same rfl rfl

theorem ensures_drop :
    Ensures (runEvent (.drop b)) m
      (fun _ m' => SessionInv start slots limit d stage h m' contents)
      (CrashSafe start slots limit d stage) := by
  rw [runEvent, ensures_bind, ensures_get]
  cases hfind : m.heldBuf b with
  | none => exact hinv.safe
  | some i =>
    apply ensures_brelse hinv.cached (heldBuf_holds hfind)
    intro m' hfree
    exact hinv.of_same hfree.cached hfree.same

theorem ensures_closing
    (hcurrent : h.current ≠ []) (hlimit : h.closed.length + 1 ≤ limit)
    (hstage : ∀ b, (logLayout start slots).Home b →
      stage (h.closed.length + 1) b =
        applyGroup (stage h.closed.length) h.current b) :
    Ensures commit m
      (fun _ m' => ∃ contents', SessionInv start slots limit d stage
        { h with closed := h.closed ++ [h.current], current := [] } m' contents')
      (CrashSafe start slots limit d stage) := by
  have hblock : m.log.block ≠ [] := fun heq => hcurrent (hinv.current.mp heq)
  have hstart : m.log.start = start := by rw [hinv.log]
  refine (ensures_commit hinv.cached hinv.safe hstart hinv.loggable hblock hinv.empty ?_ ?_).post ?_
  · rw [hinv.count]
    exact hlimit
  · intro b hb
    rw [hinv.count, hinv.home b hb]
    exact hstage b hb
  · rintro _ m' ⟨⟨contents', hsettled⟩, hlog, hcount⟩
    rw [hinv.count] at hcount
    refine ⟨contents', ?_⟩
    constructor
    case cached => simpa [hsettled.block] using hsettled.cached
    case safe => exact hsettled.safe
    case log =>
      rw [hlog, hinv.log]
    case loggable =>
      rw [hsettled.block]
      exact loggable_nil
    case current => simp [hsettled.block]
    case empty => exact hsettled.empty
    case count => simp [hcount]
    case home =>
      intro b hb
      rw [hsettled.home b hb, hcount]
      simp [applyGroup]

theorem ensures_endOp
    (hlimit : (h.record .endOp).closed.length ≤ limit)
    (hstage : ∀ group, (h.record .endOp).closed = h.closed ++ [group] →
      ∀ b, (logLayout start slots).Home b → stage (h.closed.length + 1) b =
        applyGroup (stage h.closed.length) group b) :
    Ensures (runEvent .endOp) m
      (fun _ m' => ∃ contents', SessionInv start slots limit d stage
        (h.record .endOp) m' contents')
      (CrashSafe start slots limit d stage) := by
  have hnext := hinv.of_outstanding (n := h.outstanding - 1)
  have houtstanding : m.log.outstanding = h.outstanding := by rw [hinv.log]
  rw [runEvent, endOp, ensures_bind, ensures_setLog, ensures_bind, ensures_get]
  simp only [houtstanding]
  by_cases hlast : h.outstanding - 1 = 0
  · rw [if_pos hlast]
    by_cases hcurrent : h.current = []
    · have hblock : m.log.block = [] := hinv.current.mpr hcurrent
      simp only [commit, ensures_bind, ensures_get, hblock, length_nil,
        lt_self_iff_false, if_false, ensures_pure]
      refine ⟨contents, ?_⟩
      simpa [History.record, hcurrent, hblock] using hnext
    · have hrecord : h.record .endOp =
          { closed := h.closed ++ [h.current], current := [], outstanding := 0 } := by
        simp [History.record, hlast, hcurrent]
      rw [hrecord] at hlimit hstage ⊢
      refine (ensures_closing hnext hcurrent ?_ ?_).post ?_
      · simpa using hlimit
      · exact hstage h.current rfl
      · rintro _ m' hpost
        simpa [hlast] using hpost
  · rw [if_neg hlast, ensures_pure]
    refine ⟨contents, ?_⟩
    simpa [History.record, hlast] using hnext

theorem ensures_beginOp :
    Ensures (runEvent .beginOp) m
      (fun _ m' => SessionInv start slots limit d stage (h.record .beginOp) m'
        contents)
      (CrashSafe start slots limit d stage) := by
  have houtstanding : m.log.outstanding = h.outstanding := by rw [hinv.log]
  rw [runEvent, beginOp, ensures_bind, ensures_check]
  split
  · rw [ensures_setLog, houtstanding]
    exact hinv.of_outstanding
  · exact hinv.safe

end

def sessionStage (start slots : ℕ) (d : ℕ → Block) (events : List FsEvent) (n : ℕ) : ℕ → Block :=
  contentsAfter ((logLayout start slots).view d) ((groupsOf events).take n)

/-- The session modifies blocks outside the log and not the superblock. -/
def ModifiesHome (start slots : ℕ) (events : List FsEvent) : Prop :=
  ∀ b f, FsEvent.update b f ∈ events → (logLayout start slots).Home b ∧ b ≠ 1

theorem sessionStage_succ {closed later : List Group} {group : Group}
    (hgroups : groupsOf events = closed ++ [group] ++ later) (b : ℕ) :
    sessionStage start slots d events (closed.length + 1) b =
      applyGroup (sessionStage start slots d events closed.length) group b := by
  have hsucc : (groupsOf events).take (closed.length + 1) = closed ++ [group] := by
    rw [hgroups, take_left' (by simp)]
  have hclosed : (groupsOf events).take closed.length = closed := by
    rw [hgroups, append_assoc, take_left]
  simp [sessionStage, hsucc, hclosed, contentsAfter]

theorem ensures_runEvent {done rest : List FsEvent} {event : FsEvent}
    (hinv : SessionInv start slots
      (groupsOf (done ++ event :: rest)).length d
      (sessionStage start slots d (done ++ event :: rest)) (historyOf done) m
      contents)
    (hhome : ModifiesHome start slots (done ++ event :: rest)) :
    Ensures (runEvent event) m
      (fun _ m' => ∃ contents', SessionInv start slots
        (groupsOf (done ++ event :: rest)).length d
        (sessionStage start slots d (done ++ event :: rest))
        (historyOf (done ++ [event])) m' contents')
      (CrashSafe start slots (groupsOf (done ++ event :: rest)).length d
        (sessionStage start slots d (done ++ event :: rest))) := by
  rw [historyOf_concat]
  cases event with
  | beginOp =>
    exact (ensures_beginOp hinv).post fun _ _ hpost => ⟨contents, hpost⟩
  | hold b => exact (ensures_hold hinv).post fun _ _ hpost => ⟨contents, hpost⟩
  | update b f =>
    obtain ⟨hb, hsuper⟩ := hhome b f (by simp)
    exact (ensures_update hinv hb hsuper).post fun _ _ hpost => ⟨_, hpost⟩
  | drop b => exact (ensures_drop hinv).post fun _ _ hpost => ⟨contents, hpost⟩
  | endOp =>
    obtain ⟨later, hlater⟩ := closed_append (done ++ [.endOp]) rest
    have hrecord : groupsOf (done ++ [.endOp]) =
        ((historyOf done).record .endOp).closed := by
      rw [groupsOf, historyOf_concat]
    rw [hrecord, append_assoc, singleton_append] at hlater
    apply ensures_endOp hinv
    · rw [hlater, length_append]
      omega
    · intro group hgroup b _
      rw [hgroup] at hlater
      exact sessionStage_succ hlater b

theorem ensures_session (hformat : LogFormat start slots d)
    (hhome : ModifiesHome start slots events) :
    Ensures (session events) (boot d)
      (fun _ m => ∃ contents, SessionInv start slots (groupsOf events).length d
        (sessionStage start slots d events) (historyOf events) m contents)
      (CrashSafe start slots (groupsOf events).length d
        (sessionStage start slots d events)) := by
  have hrec : Recoverable start slots d (sessionStage start slots d events 0) :=
    ⟨hformat, fun b _ => rfl⟩
  rw [session, ensures_bind]
  refine (ensures_initlog (groupsOf events).length _ hrec).mono ?_ fun _ => False.elim
  rintro _ m ⟨⟨contents, hsettled⟩, hlog, hcount⟩
  apply ensures_forM fun done m => ∃ contents, SessionInv start slots
    (groupsOf events).length d (sessionStage start slots d events)
    (historyOf done) m contents
  · refine ⟨contents, ?_⟩
    constructor
    case cached => simpa [hsettled.block] using hsettled.cached
    case safe => exact hsettled.safe
    case log =>
      rw [hlog]
      rfl
    case loggable =>
      rw [hsettled.block]
      exact loggable_nil
    case current => simp [hsettled.block, historyOf]
    case empty => exact hsettled.empty
    case count => exact hcount
    case home =>
      intro b hb
      rw [hsettled.home b hb, hcount]
      rfl
  · rintro done event rest m rfl ⟨contents, hinv⟩
    exact ensures_runEvent hinv hhome

/-- What a boot from `d` may leave on the disk when power fails before it is
over. -/
def RecoveryCrash (d d' : ℕ → Block) : Prop :=
  ∃ k, d' = applyWrites d ((stateOf (initlog (boot d))).writes.take k)

theorem RecoveryCrash.recoverable {d' : ℕ → Block} (hcrash : RecoveryCrash d d')
    (hrec : Recoverable start slots d contents) : Recoverable start slots d' contents := by
  obtain ⟨k, rfl⟩ := hcrash
  obtain ⟨_, m, hrun, ⟨_, hsettled⟩, _⟩ := (ensures_initlog 0 (fun _ => contents) hrec).total
  rw [hrun]
  exact hsettled.safe.always k

theorem recoverable_of_recoveryCrashes {d' : ℕ → Block}
    (hcrashes : Relation.ReflTransGen RecoveryCrash d d')
    (hrec : Recoverable start slots d contents) : Recoverable start slots d' contents := by
  induction hcrashes with
  | refl => exact hrec
  | tail _ hcrash ih => exact hcrash.recoverable ih

theorem initlog_installs (hrec : Recoverable start slots d contents) :
    ∃ m, initlog (boot d) = .ok () m ∧
      ∀ b, (logLayout start slots).Home b → m.disk b = contents b := by
  obtain ⟨_, m, hrun, ⟨cached, hsettled⟩, _⟩ := (ensures_initlog 0 (fun _ => contents) hrec).total
  refine ⟨m, hrun, ?_⟩
  intro b hb
  rw [hsettled.cached.clean b (by simp), hsettled.home b hb]

/-- Cut a session short after any number of disk writes, and the recoveries that
follow after any number of theirs: the boot that completes finds the contents
after exactly the groups whose header was written by the session. -/
theorem log_crash_atomic (hformat : LogFormat start slots d)
    (hhome : ModifiesHome start slots events) (k : ℕ) :
    let writes := (stateOf (session events (boot d))).writes.take k
    commitCount start writes ≤ (groupsOf events).length ∧
    (∀ d', Relation.ReflTransGen RecoveryCrash (applyWrites d writes) d' →
      ∃ m, initlog (boot d') = .ok () m ∧
        ∀ b, (logLayout start slots).Home b → m.disk b =
          contentsAfter ((logLayout start slots).view d)
            ((groupsOf events).take (commitCount start writes)) b) ∧
    ∀ m, session events (boot d) = .ok () m →
      commitCount start m.writes = (groupsOf events).length := by
  have hsession := ensures_session hformat hhome
  have hsafe : CrashSafe start slots (groupsOf events).length d
      (sessionStage start slots d events)
      (stateOf (session events (boot d))) := by
    apply Ensures.stateOf
    refine hsession.post ?_
    rintro _ m ⟨contents, hinv⟩
    exact hinv.safe
  refine ⟨?_, ?_, ?_⟩
  · refine le_trans ?_ hsafe.count
    exact (List.take_sublist k _).countP_le
  · intro d' hcrashes
    exact initlog_installs (recoverable_of_recoveryCrashes hcrashes (hsafe.always k))
  · intro m hrun
    unfold Ensures at hsession
    rw [hrun] at hsession
    obtain ⟨contents, hinv⟩ := hsession
    exact hinv.count

def formattedDisk : ℕ → Block := fun b i =>
  if b = 1 ∧ i.val = 3 then 30 else if b = 1 ∧ i.val = 4 then 2 else 0

def oneChange : List FsEvent :=
  [.beginOp, .hold 100, .update 100 (fun _ _ => 7), .drop 100, .endOp]

theorem formattedDisk_logFormat : LogFormat 2 29 formattedDisk where
  nlog := by decide
  logstart := by decide
  behind := by decide
  size := by decide
  logged := by
    have hempty : (logLayout 2 29).logged formattedDisk = [] := by decide
    rw [hempty]
    exact loggable_nil

theorem oneChange_modifiesHome : ModifiesHome 2 29 oneChange := by
  intro b f hmem
  simp only [oneChange, mem_cons, reduceCtorEq, FsEvent.update.injEq,
    false_or, or_false, not_mem_nil] at hmem
  rw [hmem.1]
  refine ⟨⟨by decide, ?_⟩, by decide⟩
  intro i hi
  simp only [logLayout] at hi ⊢
  omega

/-- Power fails right after the header of the only group has been written. -/
theorem log_crash_atomic_oneChange :
    (groupsOf oneChange).length = 1 ∧
    ∀ d', Relation.ReflTransGen RecoveryCrash
        (applyWrites formattedDisk
          ((stateOf (session oneChange (boot formattedDisk))).writes.take 3)) d' →
      ∃ m, initlog (boot d') = .ok () m ∧
        ∀ b, (logLayout 2 29).Home b → m.disk b =
          contentsAfter ((logLayout 2 29).view formattedDisk)
            ((groupsOf oneChange).take 1) b := by
  have hcount : commitCount 2
      ((stateOf (session oneChange (boot formattedDisk))).writes.take 3) = 1 := by
    decide +kernel
  have hatomic := (log_crash_atomic formattedDisk_logFormat oneChange_modifiesHome 3).2.1
  rw [hcount] at hatomic
  exact ⟨rfl, hatomic⟩

end Xv6Kernel
