import Xv6Kernel.BufferCache
import Xv6Kernel.LinkedQueue
import Xv6Kernel.SpinOwnership
import Mathlib.Data.Finset.Basic

/-!
# The IDE driver

`ide.c` as a caller of `sleep` and `wakeup`: `iderw` run by processes, `ideintr`
run by interrupt handlers, and the drive itself, which carries out one command
at a time and raises one interrupt for it.  The buffers are the elements of an
arbitrary type.  `idequeue` and the fields `qnext` are pointers, and the loop
that looks for the end of the queue is followed pointer by pointer.

A process calls `iderw` for a buffer whose lock it has.  The lock of a buffer is
taken and released in one step here, and between its calls of `iderw` the process
may change the buffer at will.

The fields `arrived`, `started` and `completed` are a history that no code
reads; so is the number that a waiting process carries, which is the place of
its request in `arrived`.
-/

namespace Xv6Kernel

open TraceExecution

/-- `iderw` of `memide.c`, as far as the buffer and the disk are concerned. -/
def memideRw (x : Buf) (disk : ℕ → Block) : Outcome (Buf × (ℕ → Block)) :=
  match iderw 0 { boot disk with buf := fun _ => x } with
  | .ok _ m => .ok (m.buf 0, m.disk)
  | .error stop _ => .error stop

/-- A command in the registers of the drive; `write` is the data of a write
command. -/
structure IdeCommand where
  drive : ℕ
  sector : ℕ
  write : Option Block

/-- The two drives of the controller.  `command` has been started and not been
carried out yet; `latch` is the sector that the last read command found. -/
structure IdeDrive where
  command : Option IdeCommand
  latch : Option Block
  irq : Bool
  disk : ℕ → ℕ → Block

/-- A request: the buffer, and what it held when it was queued. -/
structure IdeRequest (B : Type) where
  buf : B
  before : Buf

structure IdeMem (B : Type) where
  buf : B → Buf
  qnext : B → Option B
  idequeue : Option B
  havedisk1 : Bool
  drive : IdeDrive
  arrived : List (IdeRequest B)
  started : List B
  completed : List B

/-- The next statement of `iderw` (from `check` to `unlock`) or of `ideintr`.
The pointer `pp` of the loop in `iderw` is `&idequeue` or the field `qnext` of a
buffer. -/
inductive IdePc (B : Type)
  | idle
  | check (b : B)
  | acquire (b : B)
  | setNext (b : B)
  | find (b : B) (pp : Option B)
  | link (b : B) (pp : Option B)
  | startTest (b : B) (r : ℕ)
  | start (b : B) (r : ℕ)
  | wait (b : B) (r : ℕ)
  | unlock (b : B) (r : ℕ)
  | intrAcquire
  | intrPop
  | intrRead (b : B)
  | intrValid (b : B)
  | intrClean (b : B)
  | intrWake (b : B)
  | intrNext
  | intrRelease
  | intrDone
  deriving DecidableEq, Repr

structure IdeUser (B : Type) where
  pos : IdePc B
  mine : Finset B
  deriving DecidableEq

inductive IdeInput (B : Type)
  | lock (b : B)
  | modify (b : B) (value : Buf)
  | unlock (b : B)
  | iderw (b : B)
  | kill (pid : ℤ)
  | continue

/-- The sector number that `idestart` writes into the registers of the drive,
byte by byte. -/
def ideSector (blockno : ℕ) : ℕ :=
  blockno % 256 + blockno / 2 ^ 8 % 256 * 2 ^ 8 +
    blockno / 2 ^ 16 % 256 * 2 ^ 16 + blockno / 2 ^ 24 % 16 * 2 ^ 24

def ideCommand (b : Buf) : IdeCommand where
  drive := b.dev % 2
  sector := ideSector b.blockno
  write := if b.dirty then some b.data else none

section Code

variable {B : Type} [DecidableEq B]

/-- A block is one sector.  `idewait(0)` waits for a drive that is not busy. -/
def idestart (mem : IdeMem B) (b : B) : Outcome (IdeMem B) := do
  ensure ((mem.buf b).blockno < fssize) "incorrect blockno"
  await (mem.drive.command.isNone = true)
  return { mem with
    drive := { mem.drive with command := some (ideCommand (mem.buf b)) }
    started := mem.started ++ [b] }

def IdeMem.setBuf (mem : IdeMem B) (b : B) (f : Buf → Buf) : IdeMem B :=
  { mem with buf := Function.update mem.buf b (f (mem.buf b)) }

def IdeMem.deref (mem : IdeMem B) (pp : Option B) : Option B :=
  LinkedQueue.cell mem.idequeue mem.qnext pp

def IdeMem.assign (mem : IdeMem B) (pp : Option B) (b : B) : IdeMem B :=
  match pp with
  | none => { mem with idequeue := some b }
  | some c => { mem with qnext := Function.update mem.qnext c (some b) }

/-- What a process may do between its calls of `iderw`. -/
def ideCaller (k : IdeUser B) (mem : IdeMem B) :
    IdeInput B → Outcome (CodeAct B Unit (IdeUser B) (IdeMem B))
  | .lock b => do
      await ((mem.buf b).locked = false)
      return .store (mem.setBuf b fun v => { v with locked := true })
        { k with mine := insert b k.mine }
  | .modify b value => do
      await (b ∈ k.mine)
      return .store (mem.setBuf b fun _ => { value with locked := true }) k
  | .unlock b => do
      await (b ∈ k.mine)
      return .store (mem.setBuf b fun v => { v with locked := false })
        { k with mine := k.mine.erase b }
  | .iderw b => do
      await (b ∈ k.mine ∧ (mem.buf b).dev = 1 ∧ (mem.buf b).blockno < fssize)
      return .store mem { k with pos := .check b }
  | .kill pid => return .kill pid k
  | .continue => blocked

def iderwCode (k : IdeUser B) (mem : IdeMem B) (input : IdeInput B) :
    Outcome (CodeAct B Unit (IdeUser B) (IdeMem B)) :=
  match k.pos with
  | .idle => ideCaller k mem input
  | .check b => do
      ensure ((mem.buf b).locked = true) "iderw: buf not locked"
      ensure (¬ ((mem.buf b).valid = true ∧ (mem.buf b).dirty = false))
        "iderw: nothing to do"
      ensure (¬ ((mem.buf b).dev ≠ 0 ∧ mem.havedisk1 = false))
        "iderw: ide disk 1 not present"
      return .store mem { k with pos := .acquire b }
  | .acquire b => return .acquire () { k with pos := .setNext b }
  | .setNext b =>
      return .store { mem with qnext := Function.update mem.qnext b none }
        { k with pos := .find b none }
  | .find b pp =>
      match mem.deref pp with
      | some c => return .store mem { k with pos := .find b (some c) }
      | none => return .store mem { k with pos := .link b pp }
  | .link b pp =>
      return .store { mem.assign pp b with
        arrived := mem.arrived ++ [⟨b, mem.buf b⟩] }
        { k with pos := .startTest b mem.arrived.length }
  | .startTest b r =>
      if mem.idequeue = some b then
        return .store mem { k with pos := .start b r }
      else return .store mem { k with pos := .wait b r }
  | .start b r => do
      let mem ← idestart mem b
      return .store mem { k with pos := .wait b r }
  | .wait b r =>
      if (mem.buf b).valid = true ∧ (mem.buf b).dirty = false then
        return .store mem { k with pos := .unlock b r }
      else return .sleep b () k
  | .unlock _ _ => return .release () { k with pos := .idle }
  | _ => blocked

def ideintrCode (k : IdeUser B) (mem : IdeMem B) :
    Outcome (CodeAct B Unit (IdeUser B) (IdeMem B)) :=
  match k.pos with
  | .intrAcquire => return .acquire () { k with pos := .intrPop }
  | .intrPop =>
      match mem.idequeue with
      | none => return .store mem { k with pos := .intrRelease }
      | some b =>
          return .store { mem with idequeue := mem.qnext b }
            { k with pos := .intrRead b }
  | .intrRead b =>
      if (mem.buf b).dirty then
        return .store mem { k with pos := .intrValid b }
      else do
        await (mem.drive.command.isNone = true)
        let data ← awaitSome mem.drive.latch
        return .store (mem.setBuf b fun v => { v with data := data })
          { k with pos := .intrValid b }
  | .intrValid b =>
      return .store (mem.setBuf b fun v => { v with valid := true })
        { k with pos := .intrClean b }
  | .intrClean b =>
      return .store { mem.setBuf b fun v => { v with dirty := false } with
        completed := mem.completed ++ [b] } { k with pos := .intrWake b }
  | .intrWake b => return .wakeup b { k with pos := .intrNext }
  | .intrNext =>
      match mem.idequeue with
      | none => return .store mem { k with pos := .intrRelease }
      | some b => do
          let mem ← idestart mem b
          return .store mem { k with pos := .intrRelease }
  | .intrRelease => return .release () { k with pos := .intrDone }
  | .intrDone => return .iret
  | _ => blocked

def ideInterrupt (mem : IdeMem B) : Outcome (IdeMem B × IdeUser B) := do
  await (mem.drive.irq = true)
  return ({ mem with drive := { mem.drive with irq := false } },
    ⟨.intrAcquire, ∅⟩)

def ideComplete (mem : IdeMem B) : Outcome (IdeMem B) := do
  let command ← awaitSome mem.drive.command
  let disk := mem.drive.disk command.drive
  match command.write with
  | some data =>
      return { mem with
        drive :=
          { command := none
            latch := none
            irq := true
            disk := Function.update mem.drive.disk command.drive
              (Function.update disk command.sector data) } }
  | none =>
      return { mem with
        drive :=
          { mem.drive with
            command := none
            latch := some (disk command.sector)
            irq := true } }

def ide (B : Type) [DecidableEq B] : Program B Unit (IdeUser B) (IdeMem B) (IdeInput B) where
  code self input k mem :=
    match self with
    | some _ => iderwCode k mem input
    | none => ideintrCode k mem
  interrupt _ mem := ideInterrupt mem
  device _ mem := ideComplete mem

abbrev IdeMachine (n : ℕ) (C B : Type) :=
  SleepMachine n C B Unit (IdeUser B) (IdeMem B)

/-- After `binit` and `ideinit` on a machine with a second disk, before any
process has run. -/
structure IdeMachine.Initial {n : ℕ} {C : Type} (s : IdeMachine n C B) :
    Prop where
  machine : SleepMachine.Initial (fun _ => ⟨.idle, ∅⟩) s
  locked : ∀ b, (s.mem.buf b).locked = false
  idequeue : s.mem.idequeue = none
  havedisk1 : s.mem.havedisk1 = true
  command : s.mem.drive.command = none
  irq : s.mem.drive.irq = false
  arrived : s.mem.arrived = []
  started : s.mem.started = []
  completed : s.mem.completed = []

/-! ## What the code can do -/

inductive IderwOk (mem : IdeMem B) (k : IdeUser B) :
    CodeAct B Unit (IdeUser B) (IdeMem B) → Prop
  | lock {b : B} (hpos : k.pos = .idle) (hfree : (mem.buf b).locked = false) :
      IderwOk mem k (.store (mem.setBuf b fun v => { v with locked := true })
        ⟨.idle, insert b k.mine⟩)
  | modify {b : B} {value : Buf} (hpos : k.pos = .idle) (hmine : b ∈ k.mine) :
      IderwOk mem k (.store (mem.setBuf b fun _ => { value with locked := true })
        ⟨.idle, k.mine⟩)
  | unlock {b : B} (hpos : k.pos = .idle) (hmine : b ∈ k.mine) :
      IderwOk mem k (.store (mem.setBuf b fun v => { v with locked := false })
        ⟨.idle, k.mine.erase b⟩)
  | call {b : B} (hpos : k.pos = .idle) (hmine : b ∈ k.mine)
      (hdev : (mem.buf b).dev = 1) (hblockno : (mem.buf b).blockno < fssize) :
      IderwOk mem k (.store mem ⟨.check b, k.mine⟩)
  | kill {pid : ℤ} (hpos : k.pos = .idle) : IderwOk mem k (.kill pid k)
  | check {b : B} (hpos : k.pos = .check b)
      (hlocked : (mem.buf b).locked = true)
      (hwork : ¬ ((mem.buf b).valid = true ∧ (mem.buf b).dirty = false)) :
      IderwOk mem k (.store mem ⟨.acquire b, k.mine⟩)
  | acquire {b : B} (hpos : k.pos = .acquire b) :
      IderwOk mem k (.acquire () ⟨.setNext b, k.mine⟩)
  | setNext {b : B} (hpos : k.pos = .setNext b) :
      IderwOk mem k
        (.store { mem with qnext := Function.update mem.qnext b none }
          ⟨.find b none, k.mine⟩)
  | findNext {b c : B} {pp : Option B} (hpos : k.pos = .find b pp)
      (hnext : mem.deref pp = some c) :
      IderwOk mem k (.store mem ⟨.find b (some c), k.mine⟩)
  | findEnd {b : B} {pp : Option B} (hpos : k.pos = .find b pp)
      (hnext : mem.deref pp = none) :
      IderwOk mem k (.store mem ⟨.link b pp, k.mine⟩)
  | link {b : B} {pp : Option B} (hpos : k.pos = .link b pp) :
      IderwOk mem k
        (.store { mem.assign pp b with
          arrived := mem.arrived ++ [⟨b, mem.buf b⟩] }
          ⟨.startTest b mem.arrived.length, k.mine⟩)
  | head {b : B} {r : ℕ} (hpos : k.pos = .startTest b r)
      (hhead : mem.idequeue = some b) :
      IderwOk mem k (.store mem ⟨.start b r, k.mine⟩)
  | behind {b : B} {r : ℕ} (hpos : k.pos = .startTest b r)
      (hhead : mem.idequeue ≠ some b) :
      IderwOk mem k (.store mem ⟨.wait b r, k.mine⟩)
  | start {b : B} {r : ℕ} {mem' : IdeMem B} (hpos : k.pos = .start b r)
      (hmem : idestart mem b = .ok mem') :
      IderwOk mem k (.store mem' ⟨.wait b r, k.mine⟩)
  | served {b : B} {r : ℕ} (hpos : k.pos = .wait b r)
      (hdone : (mem.buf b).valid = true ∧ (mem.buf b).dirty = false) :
      IderwOk mem k (.store mem ⟨.unlock b r, k.mine⟩)
  | sleep {b : B} {r : ℕ} (hpos : k.pos = .wait b r)
      (hwait : ¬ ((mem.buf b).valid = true ∧ (mem.buf b).dirty = false)) :
      IderwOk mem k (.sleep b () k)
  | leave {b : B} {r : ℕ} (hpos : k.pos = .unlock b r) :
      IderwOk mem k (.release () ⟨.idle, k.mine⟩)

inductive IdeintrOk (mem : IdeMem B) (k : IdeUser B) :
    CodeAct B Unit (IdeUser B) (IdeMem B) → Prop
  | acquire (hpos : k.pos = .intrAcquire) :
      IdeintrOk mem k (.acquire () ⟨.intrPop, k.mine⟩)
  | empty (hpos : k.pos = .intrPop) (hhead : mem.idequeue = none) :
      IdeintrOk mem k (.store mem ⟨.intrRelease, k.mine⟩)
  | pop {b : B} (hpos : k.pos = .intrPop) (hhead : mem.idequeue = some b) :
      IdeintrOk mem k (.store { mem with idequeue := mem.qnext b }
        ⟨.intrRead b, k.mine⟩)
  | skip {b : B} (hpos : k.pos = .intrRead b)
      (hdirty : (mem.buf b).dirty = true) :
      IdeintrOk mem k (.store mem ⟨.intrValid b, k.mine⟩)
  | read {b : B} {data : Block} (hpos : k.pos = .intrRead b)
      (hdirty : (mem.buf b).dirty = false)
      (hlatch : mem.drive.latch = some data) :
      IdeintrOk mem k (.store (mem.setBuf b fun v => { v with data := data })
        ⟨.intrValid b, k.mine⟩)
  | valid {b : B} (hpos : k.pos = .intrValid b) :
      IdeintrOk mem k (.store (mem.setBuf b fun v => { v with valid := true })
        ⟨.intrClean b, k.mine⟩)
  | clean {b : B} (hpos : k.pos = .intrClean b) :
      IdeintrOk mem k
        (.store { mem.setBuf b fun v => { v with dirty := false } with
          completed := mem.completed ++ [b] } ⟨.intrWake b, k.mine⟩)
  | wake {b : B} (hpos : k.pos = .intrWake b) :
      IdeintrOk mem k (.wakeup b ⟨.intrNext, k.mine⟩)
  | nothing (hpos : k.pos = .intrNext) (hhead : mem.idequeue = none) :
      IdeintrOk mem k (.store mem ⟨.intrRelease, k.mine⟩)
  | next {b : B} {mem' : IdeMem B} (hpos : k.pos = .intrNext)
      (hhead : mem.idequeue = some b) (hmem : idestart mem b = .ok mem') :
      IdeintrOk mem k (.store mem' ⟨.intrRelease, k.mine⟩)
  | release (hpos : k.pos = .intrRelease) :
      IdeintrOk mem k (.release () ⟨.intrDone, k.mine⟩)
  | done (hpos : k.pos = .intrDone) : IdeintrOk mem k .iret

variable {mem : IdeMem B} {k : IdeUser B} {input : IdeInput B}
variable {act : CodeAct B Unit (IdeUser B) (IdeMem B)}

theorem ideCaller_ok (hpos : k.pos = .idle)
    (hcode : ideCaller k mem input = .ok act) : IderwOk mem k act := by
  obtain ⟨pos, mine⟩ := k
  obtain rfl : pos = .idle := hpos
  cases input <;> simp only [ideCaller, bind_eq_ok, await_eq_ok, pure_eq_ok,
    blocked_ne_ok] at hcode
  case lock b =>
    obtain ⟨_, hfree, rfl⟩ := hcode
    exact .lock rfl hfree
  case modify b value =>
    obtain ⟨_, hmine, rfl⟩ := hcode
    exact .modify rfl hmine
  case unlock b =>
    obtain ⟨_, hmine, rfl⟩ := hcode
    exact .unlock rfl hmine
  case iderw b =>
    obtain ⟨_, ⟨hmine, hdev, hblockno⟩, rfl⟩ := hcode
    exact .call rfl hmine hdev hblockno
  case kill pid =>
    subst hcode
    exact .kill rfl

theorem iderwCode_ok (hcode : iderwCode k mem input = .ok act) : IderwOk mem k act := by
  cases hpos : k.pos <;> simp only [iderwCode, hpos, bind_eq_ok, ensure_eq_ok,
    pure_eq_ok, blocked_ne_ok] at hcode
  case idle => exact ideCaller_ok hpos hcode
  case check b =>
    obtain ⟨_, hlocked, _, hwork, _, _, rfl⟩ := hcode
    exact .check hpos hlocked hwork
  case acquire b =>
    subst hcode
    exact .acquire hpos
  case setNext b =>
    subst hcode
    exact .setNext hpos
  case find b pp =>
    split at hcode
    next c hnext =>
      rw [pure_eq_ok] at hcode
      subst hcode
      exact .findNext hpos hnext
    next hnext =>
      rw [pure_eq_ok] at hcode
      subst hcode
      exact .findEnd hpos hnext
  case link b pp =>
    subst hcode
    exact .link hpos
  case startTest b r =>
    split at hcode
    next hhead =>
      rw [pure_eq_ok] at hcode
      subst hcode
      exact .head hpos hhead
    next hhead =>
      rw [pure_eq_ok] at hcode
      subst hcode
      exact .behind hpos hhead
  case start b r =>
    obtain ⟨mem', hmem, rfl⟩ := hcode
    exact .start hpos hmem
  case wait b r =>
    split at hcode
    next hdone =>
      rw [pure_eq_ok] at hcode
      subst hcode
      exact .served hpos hdone
    next hwait =>
      rw [pure_eq_ok] at hcode
      subst hcode
      exact .sleep hpos hwait
  case unlock b r =>
    subst hcode
    exact .leave hpos

theorem ideintrCode_ok (hcode : ideintrCode k mem = .ok act) : IdeintrOk mem k act := by
  cases hpos : k.pos <;> simp only [ideintrCode, hpos, pure_eq_ok,
    blocked_ne_ok] at hcode
  case intrAcquire =>
    subst hcode
    exact .acquire hpos
  case intrPop =>
    split at hcode
    next hhead =>
      rw [pure_eq_ok] at hcode
      subst hcode
      exact .empty hpos hhead
    next b hhead =>
      rw [pure_eq_ok] at hcode
      subst hcode
      exact .pop hpos hhead
  case intrRead b =>
    split at hcode
    next hdirty =>
      rw [pure_eq_ok] at hcode
      subst hcode
      exact .skip hpos hdirty
    next hdirty =>
      simp only [bind_eq_ok, await_eq_ok, awaitSome_eq_ok, pure_eq_ok] at hcode
      obtain ⟨_, _, data, hlatch, rfl⟩ := hcode
      exact .read hpos (by simpa using hdirty) hlatch
  case intrValid b =>
    subst hcode
    exact .valid hpos
  case intrClean b =>
    subst hcode
    exact .clean hpos
  case intrWake b =>
    subst hcode
    exact .wake hpos
  case intrNext =>
    split at hcode
    next hhead =>
      rw [pure_eq_ok] at hcode
      subst hcode
      exact .nothing hpos hhead
    next b hhead =>
      simp only [bind_eq_ok, pure_eq_ok] at hcode
      obtain ⟨mem', hmem, rfl⟩ := hcode
      exact .next hpos hhead hmem
  case intrRelease =>
    subst hcode
    exact .release hpos
  case intrDone =>
    subst hcode
    exact .done hpos

def IdePc.locked : IdePc B → Bool
  | .setNext _ | .find _ _ | .link _ _ | .startTest _ _ | .start _ _
  | .wait _ _ | .unlock _ _ | .intrPop | .intrRead _ | .intrValid _
  | .intrClean _ | .intrWake _ | .intrNext | .intrRelease => true
  | _ => false

def ideHeld (k : IdeUser B) (_ : Unit) : Prop := k.pos.locked = true

theorem ide_locking : (ide B).Locking ideHeld := by
  constructor
  case acquire | release =>
    intro self input k mem lk next h l
    cases self with
    | none => cases ideintrCode_ok h; simp_all [ideHeld, IdePc.locked]
    | some task => cases iderwCode_ok h; simp_all [ideHeld, IdePc.locked]
  case sleep =>
    intro self input k mem chan lk next h
    cases self with
    | none => cases ideintrCode_ok h
    | some task => cases iderwCode_ok h; simp_all [ideHeld, IdePc.locked]
  case wakeup =>
    intro self input k mem chan next h l
    cases self with
    | none => cases ideintrCode_ok h; simp_all [ideHeld, IdePc.locked]
    | some task => cases iderwCode_ok h
  case kill =>
    intro self input k mem pid next h l
    cases self with
    | none => cases ideintrCode_ok h
    | some task => cases iderwCode_ok h; rfl
  case store =>
    intro self input k mem mem' next h l
    cases self with
    | none => cases ideintrCode_ok h <;> simp_all [ideHeld, IdePc.locked]
    | some task => cases iderwCode_ok h <;> simp_all [ideHeld, IdePc.locked]
  case iret =>
    intro self input k mem h
    cases self with
    | none => cases ideintrCode_ok h; simp_all [ideHeld, IdePc.locked]
    | some task => cases iderwCode_ok h
  case interrupt =>
    intro input mem mem' k h
    simp only [ide, ideInterrupt, bind_eq_ok, await_eq_ok, pure_eq_ok] at h
    obtain ⟨_, _, heq⟩ := h
    cases heq
    simp [ideHeld, IdePc.locked]

end Code

end Xv6Kernel
