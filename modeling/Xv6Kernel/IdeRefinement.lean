import Xv6Kernel.IdeStatements

/-!
# The IDE driver refines the memory disk

The statements of the driver put together along the runs of the machine.  The
holder of `idelock` is the thread whose position decides what is true of the
queue; all other threads stand outside of the critical sections.
-/

namespace Xv6Kernel

open TraceExecution LinkedQueue Function CodePc IdePc List

section Code

variable {n : ℕ} {C B : Type} [DecidableEq B] {disk : ℕ → Block}
variable {mem mem' : IdeMem B} {user : Fin n → IdeUser B}
variable {signals signals' : C → Prop} {pos : IdePc B} {c : C} {p : Fin n}
variable {k next : IdeUser B} {b : B}

def IdePc.pending : IdePc B → Bool
  | .intrAcquire | .intrPop => true
  | _ => false

omit [DecidableEq B] in
theorem idestart_completed (hmem : idestart mem b = .ok mem') : mem'.completed = mem.completed := by
  simp only [idestart, bind_eq_ok, ensure_eq_ok, await_eq_ok, pure_eq_ok] at hmem
  obtain ⟨_, _, _, _, rfl⟩ := hmem
  rfl

theorem IderwOk.completed (hcode : IderwOk mem k (.store mem' next)) :
    mem'.completed = mem.completed := by
  cases hcode with
  | @link b pp hpos => cases pp <;> rfl
  | start hpos hmem => exact idestart_completed hmem
  | _ => rfl

theorem IdeintrOk.completed (hcode : IdeintrOk mem k (.store mem' next)) :
    mem'.completed = mem.completed ∨ ∃ b, k.pos = .intrClean b ∧
      next.pos = .intrWake b ∧ mem'.completed = mem.completed ++ [b] := by
  cases hcode with
  | @clean b hpos => exact Or.inr ⟨b, hpos, rfl, rfl⟩
  | next hpos hhead hmem => exact Or.inl (idestart_completed hmem)
  | _ => exact Or.inl rfl

theorem IdeintrOk.locked_of_store (hcode : IdeintrOk mem k (.store mem' next)) :
    k.pos.locked = true := by
  cases hcode <;> simp_all [locked]

namespace IdeOk

theorem congr_signals (hsignals : ∀ c, signals' c ↔ signals c)
    (h : IdeOk disk mem user signals pos) : IdeOk disk mem user signals' pos := by
  obtain rfl : signals' = signals := funext fun c => propext (hsignals c)
  exact h

theorem not_mine (h : IdeOk disk mem user signals pos) (hmine : b ∈ (user p).mine) (q : Fin n)
    (hq : q ≠ p) : b ∉ (user q).mine :=
  fun hb => hq (h.users.apart q p b hb hmine)

theorem iderw_store (h : IdeOk disk mem user signals pos)
    (hpos : (user p).pos.locked = true → pos = (user p).pos)
    (hcode : IderwOk mem (user p) (.store mem' next)) :
    IdeOk disk mem' (update user p next) signals
      (if (user p).pos.locked then next.pos else pos) := by
  have hp := h.users.each p
  cases hcode with
  | lock hidle hfree =>
    rw [hidle]
    refine h.modify hidle ?_ ?_ (fun _ => rfl)
    · intro q _ hb
      simp [(h.users.each q).1 _ hb] at hfree
    · intro c hc
      simpa using hc
  | modify hidle hmine =>
    rw [hidle]
    exact h.modify hidle (h.not_mine hmine) (fun _ hc => Or.inr hc) (fun _ => rfl)
  | unlock hidle hmine =>
    rw [hidle]
    refine h.modify hidle (h.not_mine hmine) ?_ (by simp)
    intro c hc
    exact Or.inr (Finset.mem_of_mem_erase hc)
  | call hidle hmine hdev hblockno =>
    rw [hidle]
    refine h.move ⟨hp.1, hmine, hdev, hblockno⟩ ?_
    simp [hidle, request]
  | check hcheck hlocked hwork =>
    rw [hcheck]
    obtain ⟨hlocks, hmine⟩ := hp
    simp only [hcheck] at hmine
    refine h.move ⟨hlocks, hmine.1, hlocked, hwork, hmine.2.1, hmine.2.2⟩ ?_
    simp [hcheck, request]
  | setNext hat =>
    rw [hat] at hpos ⊢
    obtain rfl := hpos rfl
    exact h.setNext hat
  | findNext hat hnext =>
    rw [hat] at hpos ⊢
    obtain rfl := hpos rfl
    exact h.find_next hat hnext
  | findEnd hat hnext =>
    rw [hat] at hpos ⊢
    obtain rfl := hpos rfl
    exact h.find_end hat hnext
  | link hat =>
    rw [hat] at hpos ⊢
    obtain rfl := hpos rfl
    exact h.link hat
  | head hat hhead =>
    obtain ⟨hlocks, hmine⟩ := hp
    simp only [hat] at hmine
    rw [hat] at hpos ⊢
    obtain rfl := hpos rfl
    refine h.step_pos ⟨hlocks, hmine⟩ ?_ (if_pos hhead).symm hhead
    simp [hat, request]
  | behind hat hhead =>
    obtain ⟨hlocks, hmine⟩ := hp
    simp only [hat] at hmine
    rw [hat] at hpos ⊢
    obtain rfl := hpos rfl
    refine h.step_pos ⟨hlocks, hmine⟩ ?_ (if_neg hhead).symm trivial
    simp [hat, request]
  | start hat hmem =>
    rw [hat] at hpos ⊢
    obtain rfl := hpos rfl
    exact h.start hat hmem
  | served hat hdone =>
    rw [hat] at hpos ⊢
    obtain rfl := hpos rfl
    exact h.wait_end hat hdone

theorem ideintr_store (h : IdeOk disk mem user signals pos)
    (hpos : k.pos.locked = true → pos = k.pos) (hcode : IdeintrOk mem k (.store mem' next))
    (hc : signals c ↔ k.pos.pending = true) (hself : signals' c ↔ next.pos.pending = true)
    (hother : ∀ d, d ≠ c → (signals' d ↔ signals d)) : IdeOk disk mem' user signals' next.pos := by
  have hsame : k.pos.pending = false → next.pos.pending = false →
      ∀ d, signals' d ↔ signals d := by
    intro hbefore hafter d
    by_cases hd : d = c
    · subst hd
      simp [hself, hc, hbefore, hafter]
    · exact hother d hd
  cases hcode with
  | empty hat hhead =>
    rw [hat] at hpos hc
    obtain rfl := hpos rfl
    obtain ⟨b, hsome, _⟩ := h.pop (hc.mpr rfl) (fun d => Iff.rfl)
    simp [hhead] at hsome
  | pop hat hhead =>
    rw [hat] at hpos hc
    obtain rfl := hpos rfl
    have hdrop : ∀ d, signals' d ↔ signals d ∧ d ≠ c := by
      intro d
      by_cases hd : d = c
      · subst hd
        simp [hself, pending]
      · simp [hother d hd, hd]
    obtain ⟨d, hsome, hok⟩ := h.pop (hc.mpr rfl) hdrop
    rw [hhead, Option.some.injEq] at hsome
    subst hsome
    exact hok
  | skip hat hdirty =>
    rw [hat] at hpos hsame
    obtain rfl := hpos rfl
    exact (h.read_skip hdirty).congr_signals (hsame rfl rfl)
  | read hat hdirty hlatch =>
    rw [hat] at hpos hsame
    obtain rfl := hpos rfl
    exact (h.read_data hdirty hlatch).congr_signals (hsame rfl rfl)
  | valid hat =>
    rw [hat] at hpos hsame
    obtain rfl := hpos rfl
    exact h.set_valid.congr_signals (hsame rfl rfl)
  | clean hat =>
    rw [hat] at hpos hsame
    obtain rfl := hpos rfl
    exact h.set_clean.congr_signals (hsame rfl rfl)
  | nothing hat hhead =>
    rw [hat] at hpos hsame
    obtain rfl := hpos rfl
    exact (h.next_none hhead).congr_signals (hsame rfl rfl)
  | next hat hhead hmem =>
    rw [hat] at hpos hsame
    obtain rfl := hpos rfl
    exact (h.next_some hhead hmem).congr_signals (hsame rfl rfl)

end IdeOk

end Code

/-! ## The machine -/

namespace IdeMachine

open SleepMachine

variable {n : ℕ} {C B : Type} {s t : IdeMachine n C B} {a : Actor n C}
variable {disk : ℕ → Block} {p : Fin n} {c : C} {b : B} {input : IdeInput B}

def user (s : IdeMachine n C B) (p : Fin n) : IdeUser B :=
  (s.pc (.proc p)).home

def lockPos (s : IdeMachine n C B) : IdePc B :=
  match s.spin () with
  | none => .idle
  | some a => (s.pc a).home.pos

/-- The CPU handles an interrupt and has not looked at the queue yet. -/
def Signals (s : IdeMachine n C B) (c : C) : Prop :=
  s.inIntr c = true ∧ (s.pc (.intr c)).home.pos.pending = true

def CallOk : CodePc B Unit (IdeUser B) → Prop
  | .code _ => True
  | .sleeping _ chan _ next => ∃ r, next.pos = .wait chan r
  | .waking _ _ next => next.pos = .intrNext
  | .killing _ _ next => next.pos = .idle

variable [DecidableEq B]

structure Refines (disk : ℕ → Block) (s : IdeMachine n C B) : Prop where
  spin : s.SpinSound ideHeld
  calls : ∀ a, (∀ d, a ≠ .sched d) → CallOk (s.pc a)
  ok : IdeOk disk s.mem s.user s.Signals s.lockPos

theorem refines_initial (hinit : s.Initial) : Refines (s.mem.drive.disk 1) s := by
  obtain ⟨hstart, hlocked, hqueue, hdisk1, hcommand, hirq, harrived, hstarted, hcompleted⟩ := hinit
  have huser : ∀ p, s.user p = ⟨.idle, ∅⟩ := by
    intro p
    simp [user, hstart.pc p, home]
  have hpos : s.lockPos = .idle := by simp [lockPos, hstart.spin]
  refine ⟨spinSound_initial hstart (by simp [ideHeld, locked]), ?_, ?_⟩
  · intro a ha
    cases a with
    | proc p => simp [hstart.pc p, CallOk]
    | sched d => exact (ha d rfl).elim
    | intr d =>
      obtain ⟨k, hk⟩ := hstart.idle d
      simp [hk, CallOk]
  · rw [hpos]
    refine ⟨hdisk1, ⟨?_, ?_, ?_, by simp [stage]⟩, ?_, ?_, trivial⟩
    · rw [harrived, hqueue, drop_nil]
      exact rfl
    · simp [hcompleted]
    · simp [hstarted, harrived]
    · refine .quiet (Or.inr ⟨rfl, ?_⟩) hcommand hirq ?_ ?_
      · simp [harrived, hcompleted]
      · simp [Signals, hstart.inIntr]
      · simp [harrived, diskAfter]
    · constructor
      case accept | flight | fresh => simp [harrived]
      case apart => simp [huser]
      case each => simp [huser, UserOk]

/-! ### One step -/

section

omit [DecidableEq B]

theorem spin_of_locked {k : IdeUser B} (hspin : s.SpinSound ideHeld) (hactor : s.actor c = some a)
    (hpc : s.pc a = .code k) (hlocked : k.pos.locked = true) : s.spin () = some a := by
  apply (hspin.owned () a).mpr
  rw [holdsSpin_actor hactor, hpc]
  exact hlocked

theorem spin_ne_of_unlocked {k : IdeUser B} (hspin : s.SpinSound ideHeld)
    (hactor : s.actor c = some a) (hpc : s.pc a = .code k)
    (hlocked : k.pos.locked = false) : s.spin () ≠ some a := by
  intro howner
  have hholds := (hspin.owned () a).mp howner
  rw [holdsSpin_actor hactor, hpc] at hholds
  simp [CodePc.Holds, ideHeld, hlocked] at hholds

theorem lockPos_of_spin (howner : s.spin () = some a) : s.lockPos = (s.pc a).home.pos := by
  simp [lockPos, howner]

theorem lockPos_of_free (hfree : s.spin () = none) : s.lockPos = .idle := by
  simp [lockPos, hfree]

theorem lockPos_of_home (hspin : t.spin () = s.spin ())
    (hhome : ∀ a, s.spin () = some a → (t.pc a).home = (s.pc a).home) : t.lockPos = s.lockPos := by
  cases howner : s.spin () with
  | none => rw [lockPos_of_free howner, lockPos_of_free (hspin.trans howner)]
  | some a =>
    rw [lockPos_of_spin howner, lockPos_of_spin (hspin.trans howner), hhome a howner]

end

theorem ok_of_home (hs : IdeOk disk s.mem s.user s.Signals s.lockPos)
    (hhome : ∀ a, (t.pc a).home = (s.pc a).home) (hmem : t.mem = s.mem) (hspin : t.spin = s.spin)
    (hintr : t.inIntr = s.inIntr) : IdeOk disk t.mem t.user t.Signals t.lockPos := by
  have huser : t.user = s.user := funext fun p => hhome (.proc p)
  have hpos : t.lockPos = s.lockPos := lockPos_of_home (by rw [hspin]) (fun a _ => hhome a)
  rw [hmem, huser, hpos]
  refine hs.congr_signals ?_
  intro c
  simp only [Signals, hintr, hhome]

variable [DecidableEq C]

section Updates

variable {pc : CodePc B Unit (IdeUser B)} {d : C}

omit [DecidableEq B] in
theorem lockPos_self (hshifts : Shifts s a pc t) (howner : t.spin () = some a) :
    t.lockPos = pc.home.pos := by
  rw [lockPos_of_spin howner, hshifts.pc, update_self]

omit [DecidableEq B] in
theorem lockPos_other (hshifts : Shifts s a pc t) (hspin : t.spin = s.spin)
    (hne : s.spin () ≠ some a) : t.lockPos = s.lockPos := by
  apply lockPos_of_home (by rw [hspin])
  intro b hb
  have hba : b ≠ a := by
    rintro rfl
    exact hne hb
  rw [hshifts.pc, update_of_ne hba]

theorem ok_inside (hs : IdeOk disk s.mem s.user s.Signals s.lockPos) (hshifts : Shifts s a pc t)
    (hhome : pc.home = (s.pc a).home) (hmem : t.mem = s.mem) (hspin : t.spin = s.spin) :
    IdeOk disk t.mem t.user t.Signals t.lockPos := by
  refine ok_of_home hs ?_ hmem hspin hshifts.inIntr
  intro b
  by_cases hb : b = a
  · simp [hshifts.pc, hb, hhome]
  · simp [hshifts.pc, hb]

theorem ok_proc (hshifts : Shifts s (.proc p) pc t)
    (hok : IdeOk disk t.mem (update s.user p pc.home) s.Signals
      t.lockPos) : IdeOk disk t.mem t.user t.Signals t.lockPos := by
  have huser : t.user = update s.user p pc.home := by
    funext q
    by_cases hq : q = p
    · simp [user, hshifts.pc, hq]
    · simp [user, hshifts.pc, hq]
  rw [huser]
  refine hok.congr_signals ?_
  intro c
  simp [Signals, hshifts.inIntr, hshifts.pc]

theorem ok_sleep {stage : SleepStage} {chan : B} {next : IdeUser B}
    (hpc : s.pc (.proc p) = .sleeping stage chan () next) (hshifts : Shifts s (.proc p) pc t)
    (hhome : pc.home = next) (hmem : t.mem = s.mem)
    (hok : IdeOk disk s.mem s.user s.Signals t.lockPos) :
    IdeOk disk t.mem t.user t.Signals t.lockPos := by
  have huser : pc.home = s.user p := by
    rw [hhome, user, hpc]
    rfl
  apply ok_proc hshifts
  rw [hmem, huser, update_eq_self]
  exact hok

omit [DecidableEq B] in
theorem user_intr (hshifts : Shifts s (.intr d) pc t) : t.user = s.user := by
  funext q
  simp [user, hshifts.pc]

theorem ok_intr (hshifts : Shifts s (.intr d) pc t)
    (hpending : pc.home.pos.pending = (s.pc (.intr d)).home.pos.pending)
    (hok : IdeOk disk t.mem s.user s.Signals t.lockPos) :
    IdeOk disk t.mem t.user t.Signals t.lockPos := by
  rw [user_intr hshifts]
  refine hok.congr_signals ?_
  intro c
  by_cases hc : c = d
  · simp [Signals, hshifts.inIntr, hshifts.pc, hc, hpending]
  · simp [Signals, hshifts.inIntr, hshifts.pc, hc]

end Updates

variable {k next : IdeUser B} {mem' : IdeMem B} {label : C × SleepMove n (IdeInput B)}

section

variable (hs : Refines disk s) (hactor : s.actor c = some a) (hpc : s.pc a = .code k)

include hs hactor hpc

theorem Refines.store (hcode : (ide B).code (s.myproc a) input k s.mem = .ok (.store t.mem next))
    (hshifts : Shifts s a (.code next) t) (hspin : t.spin = s.spin) :
    IdeOk disk t.mem t.user t.Signals t.lockPos := by
  have hlock : k.pos.locked = true → s.lockPos = k.pos := by
    intro hlocked
    rw [lockPos_of_spin (spin_of_locked hs.spin hactor hpc hlocked), hpc]
    rfl
  have hself : k.pos.locked = true → t.lockPos = next.pos := by
    intro hlocked
    apply lockPos_self hshifts
    rw [hspin]
    exact spin_of_locked hs.spin hactor hpc hlocked
  cases a with
  | proc p =>
    have huser : s.user p = k := by simp [user, hpc, home]
    subst huser
    have hok := hs.ok.iderw_store hlock (iderwCode_ok hcode)
    apply ok_proc hshifts
    cases hlocked : (s.user p).pos.locked with
    | true =>
      rw [hlocked, if_pos rfl] at hok
      rw [hself hlocked]
      exact hok
    | false =>
      rw [hlocked] at hok
      rw [lockPos_other hshifts hspin (spin_ne_of_unlocked hs.spin hactor hpc hlocked)]
      exact hok
  | sched d => exact (actor_ne_sched hactor).elim
  | intr d =>
    obtain ⟨rfl, hintr⟩ := actor_intr hactor
    have hintrOk := ideintrCode_ok hcode
    have hlocked := hintrOk.locked_of_store
    rw [hself hlocked, user_intr hshifts]
    refine hs.ok.ideintr_store (c := d) hlock hintrOk ?_ ?_ ?_
    · simp [Signals, hintr, hpc, home]
    · simp [Signals, hshifts.inIntr, hshifts.pc, hintr, home]
    · intro e he
      simp [Signals, hshifts.inIntr, hshifts.pc, he]

theorem Refines.acquire (hcode : (ide B).code (s.myproc a) input k s.mem = .ok (.acquire () next))
    (hshifts : Shifts s a (.code next) t) (hmem : t.mem = s.mem) (hfree : s.spin () = none)
    (hspin : t.spin () = some a) : IdeOk disk t.mem t.user t.Signals t.lockPos := by
  have hok := hs.ok
  rw [lockPos_of_free hfree] at hok
  have hpos := lockPos_self hshifts hspin
  cases a with
  | proc p =>
    have huser : s.user p = k := by simp [user, hpc, home]
    subst huser
    apply ok_proc hshifts
    rw [hpos, hmem]
    cases iderwCode_ok hcode with
    | acquire hat =>
      obtain ⟨hlocks, hmine⟩ := hok.users.each p
      simp only [hat] at hmine
      refine hok.step_pos ⟨hlocks, hmine⟩ ?_ rfl trivial
      simp [hat, request]
  | sched d => exact (actor_ne_sched hactor).elim
  | intr d =>
    cases ideintrCode_ok hcode with
    | acquire hat =>
      apply ok_intr hshifts
      · simp [home, hpc, hat, pending]
      · rw [hpos, hmem]
        exact hok.repos rfl trivial

theorem Refines.release (hcode : (ide B).code (s.myproc a) input k s.mem = .ok (.release () next))
    (hshifts : Shifts s a (.code next) t) (hmem : t.mem = s.mem) (howner : s.spin () = some a)
    (hspin : t.spin () = none) : IdeOk disk t.mem t.user t.Signals t.lockPos := by
  have hok := hs.ok
  rw [lockPos_of_spin howner, hpc] at hok
  have hpos := lockPos_of_free hspin
  cases a with
  | proc p =>
    have huser : s.user p = k := by simp [user, hpc, home]
    subst huser
    apply ok_proc hshifts
    rw [hpos, hmem]
    cases iderwCode_ok hcode with
    | leave hat =>
      simp only [home, hat] at hok
      exact hok.unlock hat
  | sched d => exact (actor_ne_sched hactor).elim
  | intr d =>
    cases ideintrCode_ok hcode with
    | release hat =>
      simp only [home, hat] at hok
      apply ok_intr hshifts
      · simp [home, hpc, hat, pending]
      · rw [hpos, hmem]
        exact hok.repos rfl trivial

end

theorem run_calls (hactor : s.actor c = some a) (hcall : CallOk (s.pc a))
    (hrun : RunOk (ide B) s c input a t) : CallOk (t.pc a) := by
  cases hrun with
  | sleep hpc hcode =>
    cases iderwCode_ok hcode with
    | sleep hat => simpa [CallOk] using ⟨_, hat⟩
  | @wakeup a k next chan hpc hcode =>
    cases a with
    | proc p => cases iderwCode_ok hcode
    | sched d => exact (actor_ne_sched hactor).elim
    | intr d =>
      cases ideintrCode_ok hcode with
      | wake hat => simp [CallOk]
  | @kill a k next pid hpc hcode =>
    cases a with
    | proc p =>
      cases iderwCode_ok hcode with
      | kill hat => simpa [CallOk] using hat
    | sched d => exact (actor_ne_sched hactor).elim
    | intr d => cases ideintrCode_ok hcode
  | iret hpc => exact hcall
  | sleepAcquire hpc | sleepRelease hpc | sleepChan hpc | sleepState hpc
  | sleepSched hpc | sleepSwtch hpc | sleepUnlock hpc | wakeAcquire hpc
  | wakeScan hpc | wakeEnd hpc | killAcquire hpc | killHit hpc
  | killMiss hpc =>
    rw [hpc] at hcall
    simpa [CallOk] using hcall
  | _ => simp [CallOk]

theorem calls_step (hstep : StepOk (ide B) s label t)
    (hcall : CallOk (s.pc a)) : CallOk (t.pc a) := by
  cases hstep with
  | @interrupt c input mem k hidle hintr =>
    by_cases ha : a = .intr c
    · simp [ha, CallOk]
    · simpa [ha] using hcall
  | @run c input b t hactor hrun =>
    by_cases ha : a = b
    · subst ha
      exact run_calls hactor hcall hrun
    · rw [hrun.pc_of_ne ha]
      exact hcall
  | _ => exact hcall

theorem Refines.run (hs : Refines disk s) (hactor : s.actor c = some a)
    (hrun : RunOk (ide B) s c input a t) : IdeOk disk t.mem t.user t.Signals t.lockPos := by
  cases hrun with
  | acquire hpc hcode hlock =>
    exact hs.acquire hactor hpc hcode ⟨rfl, rfl⟩ rfl hlock (by simp)
  | release hpc hcode hlock =>
    exact hs.release hactor hpc hcode ⟨rfl, rfl⟩ rfl hlock (by simp)
  | store hpc hcode => exact hs.store hactor hpc hcode ⟨rfl, rfl⟩ rfl
  | sleep hpc hcode =>
    cases iderwCode_ok hcode with
    | sleep hat =>
      exact ok_inside hs.ok ⟨rfl, rfl⟩ (by simp [home, hpc]) rfl rfl
  | @kill a k next pid hpc hcode =>
    cases a with
    | proc p =>
      cases iderwCode_ok hcode with
      | kill hat =>
        exact ok_inside hs.ok ⟨rfl, rfl⟩ (by simp [home, hpc]) rfl
          rfl
    | sched d => exact (actor_ne_sched hactor).elim
    | intr d => cases ideintrCode_ok hcode
  | @wakeup a k next chan hpc hcode =>
    cases a with
    | proc p => cases iderwCode_ok hcode
    | sched d => exact (actor_ne_sched hactor).elim
    | intr d =>
      cases ideintrCode_ok hcode with
      | wake hat =>
        have howner := spin_of_locked hs.spin hactor hpc (by simp [hat, locked])
        have hok := hs.ok
        rw [lockPos_of_spin howner, hpc] at hok
        simp only [home, hat] at hok
        have hshifts : Shifts s (.intr d)
            (.waking .acquire chan ⟨.intrNext, k.mine⟩)
            (s.setPc (.intr d) (.waking .acquire chan
              ⟨.intrNext, k.mine⟩)) := ⟨rfl, rfl⟩
        apply ok_intr hshifts
        · simp [home, hpc, hat, pending]
        · rw [lockPos_self hshifts howner]
          exact hok.repos rfl trivial
  | @iret d k hpc hcode =>
    obtain ⟨rfl, hintr⟩ := actor_intr hactor
    cases ideintrCode_ok hcode with
    | done hat =>
      apply hs.ok.congr_signals
      intro e
      by_cases he : e = d
      · subst he
        simp [Signals, hpc, home, hat, pending]
      · simp [Signals, he]
  | @sleepRelease p chan lk next hpc hlock =>
    obtain ⟨r, hwait⟩ : ∃ r, next.pos = .wait chan r := by
      simpa [hpc, CallOk] using hs.calls (.proc p) (by simp)
    have hok := hs.ok
    rw [lockPos_of_spin hlock, hpc] at hok
    simp only [home, hwait] at hok
    refine ok_sleep hpc ⟨rfl, rfl⟩ rfl rfl ?_
    rw [lockPos_of_free (by simp)]
    exact hok.repos rfl trivial
  | @sleepRelock p chan lk next hpc hlock =>
    obtain ⟨r, hwait⟩ : ∃ r, next.pos = .wait chan r := by
      simpa [hpc, CallOk] using hs.calls (.proc p) (by simp)
    have hok := hs.ok
    rw [lockPos_of_free hlock] at hok
    refine ok_sleep hpc ⟨rfl, rfl⟩ rfl rfl ?_
    rw [lockPos_of_spin (a := .proc p) (by simp)]
    simp only [setSpin, setPc, update_self, home, hwait]
    exact hok.repos rfl trivial
  | sleepAcquire hpc | sleepChan hpc | sleepState hpc | sleepSched hpc
  | sleepSwtch hpc | sleepUnlock hpc | wakeAcquire hpc | wakeScan hpc
  | wakeEnd hpc | wakeRelease hpc | killAcquire hpc | killHit hpc
  | killMiss hpc | killRelease hpc =>
    exact ok_inside hs.ok ⟨rfl, rfl⟩ (by simp [home, hpc]) rfl rfl

theorem Refines.interrupt (hs : Refines disk s) (hidle : s.inIntr c = false)
    (hirq : s.mem.drive.irq = true) : let t : IdeMachine n C B :=
      { (s.setIntr c true).setPc (.intr c) (.code ⟨.intrAcquire, ∅⟩) with
        mem := { s.mem with drive := { s.mem.drive with irq := false } } }
    IdeOk disk t.mem t.user t.Signals t.lockPos := by
  intro t
  have hne : ∀ a, s.spin () = some a → a ≠ .intr c := by
    rintro a ha rfl
    have hholds := (hs.spin.owned () _).mp ha
    simp [HoldsSpin, hidle] at hholds
  have hpos : t.lockPos = s.lockPos := by
    refine lockPos_of_home rfl ?_
    intro a ha
    simp [t, hne a ha]
  have huser : t.user = s.user := by
    funext p
    simp [t, user]
  have hsignals : ∀ d, t.Signals d ↔ s.Signals d ∨ d = c := by
    intro d
    by_cases hd : d = c
    · simp [t, Signals, hd, home, pending]
    · simp [t, Signals, hd]
  rw [hpos, huser]
  exact ⟨hs.ok.havedisk1, hs.ok.queue, hs.ok.drive.signal hirq hsignals, hs.ok.users, hs.ok.holder⟩

theorem Refines.step (hs : Refines disk s) (hstep : StepOk (ide B) s label t) : Refines disk t := by
  refine ⟨hs.spin.step ide_locking hstep, fun a ha => calls_step hstep (hs.calls a ha), ?_⟩
  cases hstep with
  | @interrupt c input mem k hidle hintr =>
    simp only [ide, ideInterrupt, bind_eq_ok, await_eq_ok, pure_eq_ok] at hintr
    obtain ⟨_, hirq, heq⟩ := hintr
    cases heq
    exact hs.interrupt hidle hirq
  | device hdevice =>
    obtain ⟨drive, rfl, hdrive⟩ := ideComplete_ok hdevice hs.ok.users.accept hs.ok.drive
    exact ⟨hs.ok.havedisk1, hs.ok.queue, hdrive, hs.ok.users, hs.ok.holder⟩
  | run hactor hrun => exact hs.run hactor hrun
  | _ => exact ok_of_home hs.ok (fun _ => rfl) rfl rfl rfl

/-! ## Nobody sleeps on a completed request -/

def Waits (s : IdeMachine n C B) (p : Fin n) (b : B) : Prop :=
  (∃ next, s.pc (.proc p) = .sleeping .acquire b () next ∨
    s.pc (.proc p) = .sleeping .release b () next) ∨ s.Waiting p b

def Wakes (s : IdeMachine n C B) (p : Fin n) (b : B) (c : C) : Prop :=
  s.inIntr c = true ∧
    ((∃ k, s.pc (.intr c) = .code k ∧ k.pos = .intrWake b) ∨
      (s.pc (.intr c)).Rouses p.val b)

/-- The request for which a process waits is not completed, or the handler that
has completed it is still to wake the process. -/
def Attended (s : IdeMachine n C B) : Prop :=
  ∀ p b, s.Waits p b →
    (∃ r, (s.user p).pos = .wait b r ∧ s.mem.completed.length ≤ r) ∨
      ∃ c, s.Wakes p b c

omit [DecidableEq B] [DecidableEq C] in
theorem Waits.pos (hcall : CallOk (s.pc (.proc p))) (hwaits : s.Waits p b) :
    ∃ r, (s.user p).pos = .wait b r := by
  cases hpc : s.pc (.proc p) with
  | sleeping stage chan lk next =>
    rw [hpc] at hcall
    obtain ⟨r, hnext⟩ := hcall
    have hchan : chan = b := by
      rcases hwaits with ⟨next', h⟩ | h
      · rcases h with h | h <;> simp_all
      · cases stage <;> simp_all [Waiting, CodePc.Waits]
    subst hchan
    exact ⟨r, by simp [user, hpc, home, hnext]⟩
  | code | waking | killing => simp [Waits, Waiting, hpc, CodePc.Waits] at hwaits

omit [DecidableEq B] [DecidableEq C] in
theorem Waits.waiting {stage : ScanStage} {next : IdeUser B} (hspin : s.SpinSound ideHeld)
    (hcalls : ∀ a, (∀ d, a ≠ .sched d) → CallOk (s.pc a)) (hwaits : s.Waits p b)
    (hintr : s.inIntr c = true) (hpc : s.pc (.intr c) = .waking stage b next) : s.Waiting p b := by
  rcases hwaits with ⟨next', hpcp⟩ | hwaiting
  · have hnext : next.pos = .intrNext := by
      simpa [hpc, CallOk] using hcalls (.intr c) (by simp)
    have hheld : s.HoldsSpin ideHeld () (.intr c) := by
      simp [HoldsSpin, hintr, hpc, CodePc.Holds, ideHeld, hnext, locked]
    have hcall := hcalls (.proc p) (by simp)
    have hheld' : s.HoldsSpin ideHeld () (.proc p) := by
      rcases hpcp with h | h <;>
      · rw [h] at hcall
        obtain ⟨r, hpos⟩ := hcall
        simp [HoldsSpin, h, CodePc.Holds, ideHeld, hpos, locked]
    simpa using (hspin.owned ()).unique hheld hheld'
  · exact hwaiting

omit [DecidableEq B] [DecidableEq C] in
theorem Wakes.holds (hcall : CallOk (s.pc (.intr c)))
    (hwakes : s.Wakes p b c) : s.HoldsSpin ideHeld () (.intr c) := by
  obtain ⟨hintr, hwakes⟩ := hwakes
  refine ⟨hintr, ?_⟩
  cases hpc : s.pc (.intr c) with
  | code k =>
    obtain hat : k.pos = .intrWake b := by
      simpa [hpc, CodePc.Rouses] using hwakes
    simp [CodePc.Holds, ideHeld, hat, locked]
  | waking stage chan next =>
    have hnext : next.pos = .intrNext := by simpa [hpc, CallOk] using hcall
    simp [CodePc.Holds, ideHeld, hnext, locked]
  | sleeping | killing => simp [hpc, CodePc.Rouses] at hwakes

theorem waits_step (hsound : s.Sound) (hstep : StepOk (ide B) s label t) (hwaits : t.Waits p b) :
    s.Waits p b ∨ t.mem = s.mem ∧ ¬ ((s.mem.buf b).valid = true ∧
      (s.mem.buf b).dirty = false) := by
  rcases hwaits with ⟨next, hpc⟩ | hwaiting
  · rcases hstep.pc_proc (p := p) with hsame | ⟨c, input, hactor, hrun⟩
    · exact Or.inl (Or.inl ⟨next, hsame ▸ hpc⟩)
    · cases hrun with
      | sleep hpc' hcode =>
        cases iderwCode_ok hcode with
        | sleep hat hwait =>
          simp at hpc
          obtain ⟨rfl, _⟩ := hpc
          exact Or.inr ⟨rfl, hwait⟩
      | sleepAcquire hpc' hlock =>
        simp at hpc
        obtain ⟨rfl, rfl⟩ := hpc
        exact Or.inl (Or.inl ⟨_, Or.inl hpc'⟩)
      | _ => simp at hpc
  · rcases hstep.waiting hsound hwaiting with h | ⟨l, next, h⟩
    · exact Or.inl (Or.inr h)
    · exact Or.inl (Or.inl ⟨next, Or.inr h⟩)

theorem run_inIntr {d : C} (hactor : s.actor d = some a) (hrun : RunOk (ide B) s d input a t)
    (hbusy : ∀ k, s.pc (.intr c) = .code k → k.pos ≠ .intrDone) : t.inIntr c = s.inIntr c := by
  cases hrun with
  | @iret e k hpc hcode =>
    obtain ⟨rfl, _⟩ := actor_intr hactor
    have hne : c ≠ e := by
      rintro rfl
      cases ideintrCode_ok hcode with
      | done hat => exact hbusy k hpc hat
    simp [hne]
  | _ => rfl

theorem run_wakes {d : C} {slot : ℕ} (hpc : s.pc (.intr c) = .code k) (hat : k.pos = .intrWake b)
    (hrun : RunOk (ide B) s d input (.intr c) t) : (t.pc (.intr c)).Rouses slot b := by
  cases hrun with
  | wakeup hpc' hcode =>
    rw [hpc] at hpc'
    cases hpc'
    cases ideintrCode_ok hcode with
    | wake hat' =>
      rw [hat] at hat'
      cases hat'
      simp [CodePc.Rouses]
  | acquire hpc' hcode | release hpc' hcode | kill hpc' hcode
  | store hpc' hcode | iret hpc' hcode =>
    rw [hpc] at hpc'
    cases hpc'
    have hok := ideintrCode_ok hcode
    cases hok <;> simp_all
  | _ => simp_all

theorem wakes_step (hsound : s.Sound) (ht : Refines disk t) (hstep : StepOk (ide B) s label t)
    (hwaits : t.Waits p b) (hwakes : s.Wakes p b c) : t.Wakes p b c := by
  obtain ⟨hintr, hwakes⟩ := hwakes
  cases hstep with
  | @interrupt d input mem k hidle _ =>
    have hne : c ≠ d := by
      rintro rfl
      simp [hidle] at hintr
    simpa [Wakes, hne, hintr] using hwakes
  | @run d input a t hactor hrun =>
    have hbusy : ∀ k, s.pc (.intr c) = .code k → k.pos ≠ .intrDone := by
      intro k hk hdone
      simp [hk, hdone, CodePc.Rouses] at hwakes
    have hafter : t.inIntr c = true := (run_inIntr hactor hrun hbusy).trans hintr
    by_cases ha : Actor.intr c = a
    · subst ha
      have hrouses : (s.pc (.intr c)).Rouses p.val b →
          (t.pc (.intr c)).Rouses p.val b :=
        hrun.rouses hsound hactor
          fun _ _ => hwaits.waiting ht.spin ht.calls hafter
      refine ⟨hafter, Or.inr ?_⟩
      rcases hwakes with ⟨k, hk, hat⟩ | hbefore
      · exact run_wakes hk hat hrun
      · exact hrouses hbefore
    · refine ⟨hafter, ?_⟩
      rw [hrun.pc_of_ne ha]
      exact hwakes
  | _ => exact ⟨hintr, hwakes⟩

theorem completed_step (hs : Refines disk s) (hstep : StepOk (ide B) s label t) :
    t.mem.completed = s.mem.completed ∨
      ∃ c request, s.mem.arrived[s.mem.completed.length]? = some request ∧
        t.mem.completed.length = s.mem.completed.length + 1 ∧
        ∀ p, t.Wakes p request.buf c := by
  cases hstep with
  | interrupt _ hintr =>
    simp only [ide, ideInterrupt, bind_eq_ok, await_eq_ok, pure_eq_ok] at hintr
    obtain ⟨_, _, heq⟩ := hintr
    cases heq
    exact Or.inl rfl
  | device hdevice =>
    obtain ⟨drive, rfl, _⟩ := ideComplete_ok hdevice hs.ok.users.accept hs.ok.drive
    exact Or.inl rfl
  | @run c input a t hactor hrun =>
    cases hrun with
    | @store a k next mem hpc hcode =>
      cases a with
      | proc p => exact Or.inl (iderwCode_ok hcode).completed
      | sched d => exact (actor_ne_sched hactor).elim
      | intr d =>
        have hintr := (actor_intr hactor).2
        obtain ⟨rfl, _⟩ := actor_intr hactor
        have hok := ideintrCode_ok hcode
        rcases hok.completed with hsame | ⟨b, hat, hnext, hgrown⟩
        · exact Or.inl hsame
        · have howner := spin_of_locked hs.spin hactor hpc hok.locked_of_store
          have hpopped := hs.ok.queue.popped b
            (by simp [lockPos_of_spin howner, hpc, home, hat,
              stage])
          obtain ⟨request, hrequest, rfl⟩ := hpopped
          refine Or.inr ⟨d, request, hrequest, by simp [hgrown], ?_⟩
          intro p
          exact ⟨hintr, Or.inl ⟨next, by simp, hnext⟩⟩
    | _ => exact Or.inl rfl
  | _ => exact Or.inl rfl

theorem user_of_waits (hstep : StepOk (ide B) s label t)
    (hwaits : s.Waits p b) : t.user p = s.user p := by
  rcases hstep.pc_proc (p := p) with hsame | ⟨c, input, hactor, hrun⟩
  · simp [user, hsame]
  · rcases hrun.view with ⟨hhome, _⟩ | ⟨k, act, hpc, _⟩
    · exact hhome (.proc p)
    · simp [Waits, Waiting, hpc, CodePc.Waits] at hwaits

omit [DecidableEq C] in
theorem Refines.placed (hs : Refines disk s) {r : ℕ} (hpos : (s.user p).pos = .wait b r) :
    Placed disk s.mem.arrived s.mem.completed.length s.mem.buf b r :=
  ((hs.ok.users.each p).of_request (by rw [hpos]; rfl)).2

theorem Attended.step (hattended : s.Attended)
    (hsound : s.Sound) (hs : Refines disk s) (hstep : StepOk (ide B) s label t) : t.Attended := by
  have ht := hs.step hstep
  intro p b hwaits
  obtain ⟨r, hpos⟩ := hwaits.pos (ht.calls (.proc p) (by simp))
  by_cases hlt : r < t.mem.completed.length
  · rcases waits_step hsound hstep hwaits with hbefore | ⟨hmem, hwork⟩
    · rcases hattended p b hbefore with ⟨r', hpos', hle⟩ | ⟨c, hwakes⟩
      · rw [user_of_waits hstep hbefore, hpos'] at hpos
        cases hpos
        rcases completed_step hs hstep with hsame | ⟨c, request, hfirst, hgrown, hwakes⟩
        · rw [hsame] at hlt
          omega
        · obtain rfl : r = s.mem.completed.length := by omega
          obtain ⟨request', hrequest', rfl, _⟩ := hs.placed hpos'
          rw [hfirst, Option.some.injEq] at hrequest'
          subst hrequest'
          exact Or.inr ⟨c, hwakes p⟩
      · exact Or.inr ⟨c, wakes_step hsound ht hstep hwaits hwakes⟩
    · obtain ⟨request, _, _, hresult⟩ := ht.placed hpos
      rw [← hmem, hresult hlt] at hwork
      exact (hwork (serve_flags _ _)).elim
  · exact Or.inl ⟨r, hpos, Nat.le_of_not_lt hlt⟩

/-! ## Whole runs -/

structure Invariant (disk : ℕ → Block) (s : IdeMachine n C B) : Prop where
  sound : s.Sound
  refines : Refines disk s
  attended : s.Attended

omit [DecidableEq C] in
theorem invariant_initial (hinit : s.Initial) : Invariant (s.mem.drive.disk 1) s where
  sound := sound_initial hinit.machine
  refines := refines_initial hinit
  attended := by
    intro p b hwaits
    simp [Waits, Waiting, hinit.machine.pc p, CodePc.Waits] at hwaits

theorem Invariant.step (hs : Invariant disk s)
    (hstep : StepOk (ide B) s label t) : Invariant disk t :=
  ⟨hs.sound.step hstep, hs.refines.step hstep,
    hs.attended.step hs.sound hs.refines hstep⟩

theorem invariant_exec {start : IdeMachine n C B} {trace : List (C × SleepMove n (IdeInput B))}
    (hinit : start.Initial) (hexec : exec (SleepMachine.step (ide B)) start trace = some s) :
    Invariant (start.mem.drive.disk 1) s :=
  exec_invariant (fun _ _ _ hs hstep => hs.step (step_ok hstep))
    (invariant_initial hinit) hexec

omit [DecidableEq C] in
theorem Refines.order (hs : Refines disk s) :
    s.mem.completed <+: s.mem.started ∧
      s.mem.started <+: s.mem.arrived.map (·.buf) := by
  have hqueue := hs.ok.queue
  constructor
  · have hprefix := (take_prefix_take_left (l := s.mem.arrived)
      (Nat.le_add_right s.mem.completed.length
        (s.lockPos.stage s.mem.idequeue).flying)).map (·.buf)
    rwa [← hqueue.completed_eq, ← hqueue.started_eq] at hprefix
  · rw [hqueue.started_eq]
    exact (List.take_prefix _ _).map _

omit [DecidableEq C] in
theorem Invariant.rest (hs : Invariant disk s) (hfree : s.spin () = none) :
    ∃ queue, Linked s.mem.qnext s.mem.idequeue queue ∧ queue.Nodup ∧
      s.mem.arrived.map (·.buf) = s.mem.completed ++ queue ∧
      s.mem.started = s.mem.completed ++ queue.take 1 ∧
      (queue ≠ [] → s.mem.drive.command ≠ none ∨ s.mem.drive.irq = true ∨
        ∃ c, s.Signals c) ∧
      ∀ p b, s.SleepingOn p b → b ∈ queue := by
  have hok := hs.refines.ok
  rw [lockPos_of_free hfree] at hok
  have hqueue := hok.queue
  refine ⟨(s.mem.arrived.drop s.mem.completed.length).map (·.buf),
    hqueue.linked, hok.users.nodup, ?_, ?_, ?_, ?_⟩
  · have hsplit := congrArg (map (·.buf)) (take_append_drop s.mem.completed.length s.mem.arrived)
    rw [map_append, ← hqueue.completed_eq] at hsplit
    exact hsplit.symm
  · have hsplit := hqueue.started_eq
    simp only [stage, IdeStage.flying] at hsplit
    rw [take_add, map_append, ← hqueue.completed_eq, map_take] at hsplit
    exact hsplit
  · intro hne
    cases hok.drive with
    | quiet hstage =>
      have hempty : s.mem.arrived.length = s.mem.completed.length := by
        simpa [stage] using hstage
      simp [drop_eq_nil_of_le hempty.le] at hne
    | busy _ hcommand => exact Or.inl (by simp [hcommand])
    | raised _ hirq => exact Or.inr (Or.inl hirq)
    | @handled c _ _ hsignals =>
      exact Or.inr (Or.inr ⟨c, (hsignals c).mpr rfl⟩)
  · intro p b hsleep
    rcases hs.attended p b (Or.inr (hs.sound.waiting hsleep)) with
      ⟨r, hpos, hle⟩ | ⟨c, hwakes⟩
    · obtain ⟨request, hrequest, rfl, _⟩ := hs.refines.placed hpos
      apply mem_map_of_mem
      rw [mem_iff_getElem?]
      refine ⟨r - s.mem.completed.length, ?_⟩
      rw [getElem?_drop, Nat.add_sub_cancel' hle]
      exact hrequest
    · have hholds := hwakes.holds (hs.refines.calls (.intr c) (by simp))
      simpa [hfree] using (hs.refines.spin.owned () (.intr c)).mpr hholds

omit [DecidableEq C] in
theorem Refines.disk_eq (hs : Refines disk s) :
    ∃ done results, s.mem.completed.length ≤ done ∧
      done ≤ s.mem.completed.length + 1 ∧
      memideRun disk (s.mem.arrived.take done) =
        .ok (results, s.mem.drive.disk 1) := by
  have hrun : ∀ done, s.mem.drive.disk 1 =
      diskAfter disk (s.mem.arrived.take done) → ∃ results,
      memideRun disk (s.mem.arrived.take done) =
        .ok (results, s.mem.drive.disk 1) := by
    intro done hdisk
    obtain ⟨results, hresults, _⟩ := @memideRun_eq B disk _
      fun request hmem => hs.ok.users.accept request (mem_of_mem_take hmem)
    exact ⟨results, hdisk ▸ hresults⟩
  rcases hs.ok.drive.disk_cases with hdisk | hdisk
  · obtain ⟨results, hresults⟩ := hrun _ hdisk
    exact ⟨_, results, le_rfl, Nat.le_succ _, hresults⟩
  · obtain ⟨results, hresults⟩ := hrun _ hdisk
    exact ⟨_, results, Nat.le_succ _, le_rfl, hresults⟩

theorem mem_of_return {r : ℕ} (hstep : StepOk (ide B) s label t)
    (hpos : (s.user p).pos = .unlock b r) (hidle : (t.user p).pos = .idle) : t.mem = s.mem := by
  rcases hstep.pc_proc (p := p) with hsame | ⟨c, input, hactor, hrun⟩
  · simp [user, hsame] at hidle hpos
    simp [hidle] at hpos
  · rcases hrun.view with ⟨hhome, _⟩ | ⟨k, act, hpc, hcode, _, hmem⟩
    · simp only [user, hhome] at hidle hpos
      simp [hidle] at hpos
    · have hk : k.pos = .unlock b r := by
        simpa [user, hpc, home] using hpos
      rw [hmem]
      cases iderwCode_ok hcode <;> simp_all [CodeAct.result]

/-- The driver refines the memory disk.  In every run requests are started and
completed in the order of their arrival.  While `idelock` is free, the queue
holds the requests that are not completed, exactly its head has been started,
the drive is at work on it or its interrupt is about to be handled, and only
callers whose request is in the queue are asleep.  The disk is that of `memide.c`
after the requests that the drive has carried out, and when `iderw` returns its
buffer is valid, clean and the one that `memide.c` produces. -/
theorem ide_refines_memide {start s : IdeMachine n C B}
    {trace : List (C × SleepMove n (IdeInput B))} (hinit : start.Initial)
    (hexec : exec (SleepMachine.step (ide B)) start trace = some s) :
    s.mem.completed <+: s.mem.started ∧
      s.mem.started <+: s.mem.arrived.map (·.buf) ∧
      (s.spin () = none →
        ∃ queue, Linked s.mem.qnext s.mem.idequeue queue ∧ queue.Nodup ∧
          s.mem.arrived.map (·.buf) = s.mem.completed ++ queue ∧
          s.mem.started = s.mem.completed ++ queue.take 1 ∧
          (queue ≠ [] → s.mem.drive.command ≠ none ∨
            s.mem.drive.irq = true ∨ ∃ c, s.Signals c) ∧
          ∀ p b, s.SleepingOn p b → b ∈ queue) ∧
      (∃ done results, s.mem.completed.length ≤ done ∧
        done ≤ s.mem.completed.length + 1 ∧
        memideRun (start.mem.drive.disk 1) (s.mem.arrived.take done) =
          .ok (results, s.mem.drive.disk 1)) ∧
      ∃ results final,
        memideRun (start.mem.drive.disk 1) s.mem.arrived =
          .ok (results, final) ∧
        ∀ label (t : IdeMachine n C B),
          SleepMachine.step (ide B) s label = some t →
          ∀ p b r, (s.user p).pos = .unlock b r → (t.user p).pos = .idle →
            (s.mem.arrived[r]?).map (·.buf) = some b ∧
            results[r]? = some (t.mem.buf b) ∧
            (t.mem.buf b).valid = true ∧ (t.mem.buf b).dirty = false := by
  have hs := invariant_exec hinit hexec
  obtain ⟨hcompleted, hstarted⟩ := hs.refines.order
  obtain ⟨results, hrun, _, hresults⟩ :=
    @memideRun_eq B (start.mem.drive.disk 1) _ hs.refines.ok.users.accept
  refine ⟨hcompleted, hstarted, hs.rest, hs.refines.disk_eq, results, _, hrun, ?_⟩
  intro label t hstep p b r hpos hidle
  rw [mem_of_return (step_ok hstep) hpos hidle]
  obtain ⟨_, hp⟩ := hs.refines.ok.users.each p
  simp only [hpos] at hp
  obtain ⟨_, ⟨request, hrequest, rfl, hresult⟩, hlt⟩ := hp
  rw [hresult hlt]
  exact ⟨by simp [hrequest], hresults r request hrequest, serve_flags _ _⟩

def twoBuffers : IdeMachine 2 Unit (Fin 2) where
  proc p := ⟨.runnable, none, false, p.val + 1⟩
  ptable := none
  spin _ := none
  ncli _ := 0
  cpu _ := .start
  inIntr _ := false
  inYield _ := true
  pc _ := .code ⟨.idle, ∅⟩
  mem :=
    { buf := fun b => ⟨1, 3, false, b = 1, 1, false, fun _ => 5⟩
      qnext := fun _ => none
      idequeue := none
      havedisk1 := true
      drive := ⟨none, none, false, fun _ _ _ => 7⟩
      arrived := []
      started := []
      completed := [] }

theorem twoBuffers_initial : twoBuffers.Initial := by
  constructor
  case machine => constructor <;> simp [twoBuffers]
  all_goals simp [twoBuffers]

/-- Process 0 reads and goes to sleep, process 1 queues its write behind it and
goes to sleep, the drive completes the read, and process 0 is woken. -/
def readAndWrite : List (Unit × SleepMove 2 (IdeInput (Fin 2))) :=
  [((), .schedAcquire), ((), .dispatch 0), ((), .yieldReturn),
    ((), .run (.lock 0)), ((), .run (.iderw 0))] ++
  List.replicate 13 ((), .run .continue) ++
  [((), .dispatch 1), ((), .yieldReturn), ((), .run (.lock 1)),
    ((), .run (.iderw 1))] ++
  List.replicate 13 ((), .run .continue) ++
  [((), .schedRelease), ((), .device .continue), ((), .interrupt .continue)] ++
  List.replicate 14 ((), .run .continue) ++
  [((), .schedAcquire), ((), .dispatch 0)] ++
  List.replicate 4 ((), .run .continue)

theorem ide_read_returns :
    ∃ s t : IdeMachine 2 Unit (Fin 2),
      exec (SleepMachine.step (ide (Fin 2))) twoBuffers readAndWrite = some s ∧
      SleepMachine.step (ide (Fin 2)) s ((), .run .continue) = some t ∧
      s.mem.arrived.map (·.buf) = [0, 1] ∧ s.mem.completed = [0] ∧
      (s.user 0).pos = .unlock 0 0 ∧ (t.user 0).pos = .idle ∧
      (t.mem.buf 0).valid = true ∧ (t.mem.buf 0).dirty = false := by
  have hrun : ∃ s : IdeMachine 2 Unit (Fin 2),
      exec (SleepMachine.step (ide (Fin 2))) twoBuffers readAndWrite =
        some s ∧
      (decide (s.mem.arrived.map (·.buf) = [0, 1]) &&
        decide (s.mem.completed = [0]) &&
        decide ((user s 0).pos = .unlock 0 0) &&
        (SleepMachine.step (ide (Fin 2)) s ((), .run .continue)).any
          fun t => decide ((user t 0).pos = .idle)) = true :=
    exec_of_any (by decide +kernel)
  obtain ⟨s, hs, htest⟩ := hrun
  simp only [Bool.and_eq_true, decide_eq_true_eq, Option.any_eq_true] at htest
  obtain ⟨⟨⟨harrived, hcompleted⟩, hpos⟩, t, hstep, hidle⟩ := htest
  obtain ⟨_, _, _, _, results, final, _, hreturn⟩ := ide_refines_memide twoBuffers_initial hs
  obtain ⟨_, _, hvalid, hdirty⟩ := hreturn _ t hstep 0 0 0 hpos hidle
  exact ⟨s, t, hs, hstep, harrived, hcompleted, hpos, hidle, hvalid, hdirty⟩

end IdeMachine

end Xv6Kernel
