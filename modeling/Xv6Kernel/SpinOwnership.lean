import Xv6Kernel.LostWakeup

/-!
# Where the caller's spinlocks are held

A program that acquires and releases in pairs says at each of its positions
which spinlocks a thread has there.  `sleep` gives up one of them for a while,
`wakeup` and `kill` none.  For such a program the owner of a spinlock is the
thread at a position where it is held.
-/

namespace Xv6Kernel

open TraceExecution Function

/-- The locks held at a position, given those held at the positions of the
caller. -/
def CodePc.Holds {A L K : Type} (held : K → L → Prop) (l : L) :
    CodePc A L K → Prop
  | .code k => held k l
  | .sleeping .acquire _ _ next | .sleeping .release _ _ next => held next l
  | .sleeping _ _ lk next => held next l ∧ l ≠ lk
  | .waking _ _ next => held next l
  | .killing _ _ next => held next l

/-- The program holds the locks `held k` at the position `k`. -/
structure Program.Locking {A L K M I : Type} (program : Program A L K M I)
    (held : K → L → Prop) : Prop where
  acquire : ∀ {self i k mem lk next},
    program.code self i k mem = .ok (.acquire lk next) →
      ∀ l, held next l ↔ held k l ∨ l = lk
  release : ∀ {self i k mem lk next},
    program.code self i k mem = .ok (.release lk next) →
      ∀ l, held next l ↔ held k l ∧ l ≠ lk
  sleep : ∀ {self i k mem chan lk next},
    program.code self i k mem = .ok (.sleep chan lk next) →
      held next lk ∧ ∀ l, held next l ↔ held k l
  wakeup : ∀ {self i k mem chan next},
    program.code self i k mem = .ok (.wakeup chan next) →
      ∀ l, held next l ↔ held k l
  kill : ∀ {self i k mem pid next},
    program.code self i k mem = .ok (.kill pid next) →
      ∀ l, held next l ↔ held k l
  store : ∀ {self i k mem mem' next},
    program.code self i k mem = .ok (.store mem' next) →
      ∀ l, held next l ↔ held k l
  iret : ∀ {self i k mem}, program.code self i k mem = .ok .iret →
    ∀ l, ¬ held k l
  interrupt : ∀ {i mem mem' k}, program.interrupt i mem = .ok (mem', k) →
    ∀ l, ¬ held k l

namespace SleepMachine

variable {n : ℕ} {C A L K M I : Type} {held : K → L → Prop}
variable {s t : SleepMachine n C A L K M} {c : C} {i : I} {a b : Actor n C}
variable {lk : L} {pc : CodePc A L K}

def HoldsSpin (held : K → L → Prop) (s : SleepMachine n C A L K M) (l : L) :
    Actor n C → Prop
  | .proc p => (s.pc (.proc p)).Holds held l
  | .sched _ => False
  | .intr c => s.inIntr c = true ∧ (s.pc (.intr c)).Holds held l

/-- The owners of the spinlocks fit the positions, and a call of `sleep` returns
to a position where the lock is held that it was given. -/
structure SpinSound (held : K → L → Prop) (s : SleepMachine n C A L K M) :
    Prop where
  owned : ∀ l, Owned (s.spin l) (s.HoldsSpin held l)
  call : ∀ p stage chan lk next,
    s.pc (.proc p) = .sleeping stage chan lk next → held next lk

theorem spinSound_initial {start : Fin n → K} (hinit : s.Initial start)
    (hstart : ∀ p l, ¬ held (start p) l) : s.SpinSound held := by
  constructor
  · intro l a
    rw [hinit.spin l]
    refine iff_of_false (by simp) ?_
    cases a with
    | proc p => simpa [HoldsSpin, hinit.pc p, CodePc.Holds] using hstart p l
    | sched d => exact id
    | intr d => simp [HoldsSpin, hinit.inIntr d]
  · intro p stage chan lk next hpc
    simp [hinit.pc p] at hpc

theorem holdsSpin_actor {l : L} (hactor : s.actor c = some a) :
    s.HoldsSpin held l a ↔ (s.pc a).Holds held l := by
  cases a with
  | proc p => exact Iff.rfl
  | sched d => exact (actor_ne_sched hactor).elim
  | intr d =>
    obtain ⟨rfl, hintr⟩ := actor_intr hactor
    simp [HoldsSpin, hintr]

variable [DecidableEq C]

theorem SpinSound.call_of_update (hs : s.SpinSound held) (hpc : t.pc = update s.pc a pc)
    (hcall : ∀ stage chan lk next, pc = .sleeping stage chan lk next → held next lk) :
    ∀ p stage chan lk next,
      t.pc (.proc p) = .sleeping stage chan lk next → held next lk := by
  intro p stage chan lk next hp
  rw [hpc] at hp
  by_cases ha : Actor.proc p = a
  · subst ha
    rw [update_self] at hp
    exact hcall stage chan lk next hp
  · rw [update_of_ne ha] at hp
    exact hs.call p stage chan lk next hp

/-- Only the position of the thread `a` changes. -/
structure Shifts (s : SleepMachine n C A L K M) (a : Actor n C)
    (pc : CodePc A L K) (t : SleepMachine n C A L K M) : Prop where
  inIntr : t.inIntr = s.inIntr
  pc : t.pc = Function.update s.pc a pc

open Shifts

namespace Shifts

theorem of_ne {l : L} (hshifts : Shifts s a pc t) (hne : b ≠ a) :
    t.HoldsSpin held l b ↔ s.HoldsSpin held l b := by
  have hpc : t.pc b = s.pc b := by rw [hshifts.pc, update_of_ne hne]
  cases b with
  | proc p => simp only [HoldsSpin, hpc]
  | sched d => exact Iff.rfl
  | intr d => simp only [HoldsSpin, hshifts.inIntr, hpc]

theorem self {l : L} (hshifts : Shifts s a pc t)
    (hactor : s.actor c = some a) : t.HoldsSpin held l a ↔ pc.Holds held l := by
  have hpc : t.pc a = pc := by rw [hshifts.pc, update_self]
  cases a with
  | proc p => simp only [HoldsSpin, hpc]
  | sched d => exact (actor_ne_sched hactor).elim
  | intr d =>
    obtain ⟨rfl, hintr⟩ := actor_intr hactor
    simp [HoldsSpin, hshifts.inIntr, hintr, hpc]

variable (hs : s.SpinSound held) (hactor : s.actor c = some a) (hshifts : Shifts s a pc t)

include hs hactor hshifts

theorem owned_of_kept {l : L} (hholds : pc.Holds held l ↔ (s.pc a).Holds held l) :
    Owned (s.spin l) (t.HoldsSpin held l) := by
  apply (hs.owned l).keep (p := a)
  · rw [hshifts.self hactor, holdsSpin_actor hactor]
    exact hholds
  · intro q hq
    exact hshifts.of_ne hq

theorem keep (hspin : t.spin = s.spin) (hholds : ∀ l, pc.Holds held l ↔ (s.pc a).Holds held l)
    (hcall : ∀ stage chan lk next, pc = .sleeping stage chan lk next → held next lk) :
    t.SpinSound held := by
  refine ⟨?_, hs.call_of_update hshifts.pc hcall⟩
  intro l
  rw [hspin]
  exact hshifts.owned_of_kept hs hactor (hholds l)

variable [DecidableEq L]

theorem take (hfree : s.spin lk = none) (hspin : t.spin = update s.spin lk (some a))
    (hself : pc.Holds held lk) (hholds : ∀ l, l ≠ lk → (pc.Holds held l ↔ (s.pc a).Holds held l))
    (hcall : ∀ stage chan lk next, pc = .sleeping stage chan lk next → held next lk) :
    t.SpinSound held := by
  refine ⟨?_, hs.call_of_update hshifts.pc hcall⟩
  intro l
  rw [hspin]
  by_cases hl : l = lk
  · subst l
    have howned := hs.owned lk
    rw [hfree] at howned
    rw [update_self]
    apply howned.take
    · exact (hshifts.self hactor).mpr hself
    · intro q hq
      exact hshifts.of_ne hq
  · rw [update_of_ne hl]
    exact hshifts.owned_of_kept hs hactor (hholds l hl)

theorem drop (hheld : s.spin lk = some a) (hspin : t.spin = update s.spin lk none)
    (hself : ¬ pc.Holds held lk) (hholds : ∀ l, l ≠ lk → (pc.Holds held l ↔ (s.pc a).Holds held l))
    (hcall : ∀ stage chan lk next, pc = .sleeping stage chan lk next → held next lk) :
    t.SpinSound held := by
  refine ⟨?_, hs.call_of_update hshifts.pc hcall⟩
  intro l
  rw [hspin]
  by_cases hl : l = lk
  · subst l
    rw [update_self]
    apply (hs.owned lk).release ((hs.owned lk a).mp hheld)
    · rw [hshifts.self hactor]
      exact hself
    · intro q hq
      exact hshifts.of_ne hq
  · rw [update_of_ne hl]
    exact hshifts.owned_of_kept hs hactor (hholds l hl)

end Shifts

variable [DecidableEq A] [DecidableEq L] {program : Program A L K M I}

theorem RunOk.spinSound (hlocking : program.Locking held) (hs : s.SpinSound held)
    (hactor : s.actor c = some a) (hrun : RunOk program s c i a t) : t.SpinSound held := by
  cases hrun with
  | acquire hpc hcode hlock =>
    have hheld := hlocking.acquire hcode
    refine take hs hactor ⟨rfl, rfl⟩ hlock rfl ?_ ?_ (by simp)
    · exact (hheld _).mpr (Or.inr rfl)
    · intro l hl
      simp [hpc, CodePc.Holds, hheld, hl]
  | release hpc hcode hlock =>
    have hheld := hlocking.release hcode
    refine drop hs hactor ⟨rfl, rfl⟩ hlock rfl ?_ ?_ (by simp)
    · simp [CodePc.Holds, hheld]
    · intro l hl
      simp [hpc, CodePc.Holds, hheld, hl]
  | sleep hpc hcode =>
    obtain ⟨hself, hheld⟩ := hlocking.sleep hcode
    refine keep hs hactor ⟨rfl, rfl⟩ rfl ?_ ?_
    · intro l
      simp [hpc, CodePc.Holds, hheld]
    · intro stage chan lk next heq
      cases heq
      exact hself
  | wakeup hpc hcode =>
    have hheld := hlocking.wakeup hcode
    exact keep hs hactor ⟨rfl, rfl⟩ rfl (by simp [hpc, CodePc.Holds, hheld]) (by simp)
  | kill hpc hcode =>
    have hheld := hlocking.kill hcode
    exact keep hs hactor ⟨rfl, rfl⟩ rfl (by simp [hpc, CodePc.Holds, hheld]) (by simp)
  | store hpc hcode =>
    have hheld := hlocking.store hcode
    exact keep hs hactor ⟨rfl, rfl⟩ rfl (by simp [hpc, CodePc.Holds, hheld]) (by simp)
  | @iret d k hpc hcode =>
    obtain ⟨rfl, _⟩ := actor_intr hactor
    refine ⟨?_, hs.call⟩
    intro l
    apply (hs.owned l).keep (p := .intr d)
    · simpa [HoldsSpin, hpc, CodePc.Holds] using fun _ =>
        hlocking.iret hcode l
    · intro b hb
      cases b with
      | proc | sched => exact Iff.rfl
      | intr e =>
        have he : e ≠ d := fun h => hb (h ▸ rfl)
        simp [HoldsSpin, he]
  | sleepAcquire hpc hlock =>
    refine keep hs hactor ⟨rfl, rfl⟩ rfl ?_ ?_
    · simp [hpc, CodePc.Holds]
    · intro stage chan lk next heq
      cases heq
      exact hs.call _ _ _ _ _ hpc
  | sleepRelease hpc hlock =>
    refine drop hs hactor ⟨rfl, rfl⟩ hlock rfl ?_ ?_ ?_
    · simp [CodePc.Holds]
    · intro l hl
      simp [hpc, CodePc.Holds, hl]
    · intro stage chan lk next heq
      cases heq
      exact hs.call _ _ _ _ _ hpc
  | sleepChan hpc | sleepState hpc | sleepSched hpc | sleepSwtch hpc
  | sleepUnlock hpc =>
    refine keep hs hactor ⟨rfl, rfl⟩ rfl ?_ ?_
    · simp [hpc, CodePc.Holds]
    · intro stage chan lk next heq
      cases heq
      exact hs.call _ _ _ _ _ hpc
  | sleepRelock hpc hlock =>
    refine take hs hactor ⟨rfl, rfl⟩ hlock rfl ?_ ?_ (by simp)
    · exact hs.call _ _ _ _ _ hpc
    · intro l hl
      simp [hpc, CodePc.Holds, hl]
  | wakeAcquire hpc | wakeScan hpc | wakeEnd hpc | wakeRelease hpc
  | killAcquire hpc | killHit hpc | killMiss hpc | killRelease hpc =>
    exact keep hs hactor ⟨rfl, rfl⟩ rfl (by simp [hpc, CodePc.Holds]) (by simp)

theorem SpinSound.step {label : C × SleepMove n I} (hlocking : program.Locking held)
    (hs : s.SpinSound held) (hstep : StepOk program s label t) : t.SpinSound held := by
  cases hstep with
  | @interrupt c i mem k hidle hintr =>
    refine ⟨?_, ?_⟩
    · intro l
      apply (hs.owned l).keep (p := .intr c)
      · simpa [HoldsSpin, hidle, CodePc.Holds] using hlocking.interrupt hintr l
      · intro b hb
        cases b with
        | proc p => simp [HoldsSpin]
        | sched e => exact Iff.rfl
        | intr e =>
          have he : e ≠ c := fun h => hb (h ▸ rfl)
          simp [HoldsSpin, he]
    · intro p stage chan lk next hpc
      exact hs.call p stage chan lk next (by simpa using hpc)
  | run hactor hrun => exact hrun.spinSound hlocking hs hactor
  | _ => exact ⟨hs.1, hs.2⟩

end SleepMachine

end Xv6Kernel
