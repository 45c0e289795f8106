import Xv6Kernel.IdeDriver

/-!
# The queue of the IDE driver against the memory disk

Requests are served in the order of their arrival.  With `nc` requests completed,
the queue holds the requests from number `nc` on, and the drive works on
number `nc`.  `serve` is what `memide.c` does with a request, and the contents of
the disk and of the buffers are those that it leaves when it is given the
requests one after another.

The three records here speak about the queue, about the drive and about the
callers; each needs to be looked at only by the statements that touch it.  While
a thread has `idelock` they may deviate from the rest state in one of two ways:
the head of the queue is still to be started, or the head has been taken off the
queue and its buffer is being served.
-/

namespace Xv6Kernel

open TraceExecution LinkedQueue

/-- The request can be given to `iderw`. -/
structure Acceptable (x : Buf) : Prop where
  locked : x.locked = true
  work : ¬ (x.valid = true ∧ x.dirty = false)
  dev : x.dev = 1
  blockno : x.blockno < fssize

/-- What `iderw` of `memide.c` does with an acceptable request. -/
def serve (x : Buf) (disk : ℕ → Block) : Buf × (ℕ → Block) :=
  if x.dirty then
    ({ x with dirty := false, valid := true },
      Function.update disk x.blockno x.data)
  else ({ x with data := disk x.blockno, valid := true }, disk)

theorem check_of_true {condition : Machine → Bool} {stop : Stop} {m : Machine}
    (h : condition m = true) : check condition stop m = .ok () m := by
  rw [check, StateHoare.get_bind_run, if_pos h]
  rfl

theorem memideRw_eq {x : Buf} (haccept : Acceptable x) (disk : ℕ → Block) :
    memideRw x disk = .ok (serve x disk) := by
  obtain ⟨hlocked, hwork, hdev, hblockno⟩ := haccept
  unfold memideRw iderw serve
  simp only [bind, EStateM.bind]
  rw [check_of_true (by simpa using hlocked)]
  simp only []
  rw [check_of_true (by simpa [imp_iff_not_or] using hwork)]
  simp only []
  rw [check_of_true (by simpa using hdev)]
  simp only []
  rw [check_of_true (by simpa using hblockno)]
  obtain ⟨dev, blockno, valid, dirty, refcnt, locked, data⟩ := x
  cases dirty <;> rfl

theorem serve_flags (x : Buf) (disk : ℕ → Block) :
    (serve x disk).1.valid = true ∧ (serve x disk).1.dirty = false := by
  unfold serve
  split
  next => exact ⟨rfl, rfl⟩
  next hdirty => exact ⟨rfl, by simpa using hdirty⟩

theorem serve_eq (x : Buf) (disk : ℕ → Block) :
    (serve x disk).1 =
      { x with
        data := (serve x disk).1.data
        valid := true
        dirty := false } := by
  unfold serve
  split
  next => rfl
  next hdirty =>
    have hclean : x.dirty = false := by simpa using hdirty
    simp only [← hclean]

section Requests

variable {B : Type} {disk : ℕ → Block} {requests : List (IdeRequest B)}

def memideRun (disk : ℕ → Block) :
    List (IdeRequest B) → Outcome (List Buf × (ℕ → Block))
  | [] => return ([], disk)
  | request :: rest => do
      let (result, disk) ← memideRw request.before disk
      let (results, disk) ← memideRun disk rest
      return (result :: results, disk)

def diskAfter (disk : ℕ → Block) (requests : List (IdeRequest B)) : ℕ → Block :=
  requests.foldl (fun disk request => (serve request.before disk).2) disk

/-- The buffer of request `r` when it has been served after those in front of
it. -/
def resultAt (disk : ℕ → Block) (requests : List (IdeRequest B)) (r : ℕ)
    (request : IdeRequest B) : Buf :=
  (serve request.before (diskAfter disk (requests.take r))).1

theorem diskAfter_succ {r : ℕ} {request : IdeRequest B} (hrequest : requests[r]? = some request) :
    diskAfter disk (requests.take (r + 1)) =
      (serve request.before (diskAfter disk (requests.take r))).2 := by
  rw [List.take_add_one, hrequest]
  simp [diskAfter]

theorem resultAt_append {r : ℕ} {request : IdeRequest B}
    {more : List (IdeRequest B)} (hr : r ≤ requests.length) :
    resultAt disk (requests ++ more) r request =
      resultAt disk requests r request := by
  unfold resultAt
  rw [List.take_append_of_le_length hr]

theorem memideRun_eq (haccept : ∀ request ∈ requests, Acceptable request.before) :
    ∃ results, memideRun disk requests = .ok (results, diskAfter disk requests) ∧
      results.length = requests.length ∧
      ∀ r request, requests[r]? = some request →
        results[r]? = some (resultAt disk requests r request) := by
  induction requests generalizing disk with
  | nil => exact ⟨[], rfl, rfl, by simp⟩
  | cons first rest ih =>
    obtain ⟨results, hrun, hlength, hresults⟩ :=
      @ih (serve first.before disk).2
        fun request hmem => haccept request (List.mem_cons_of_mem _ hmem)
    refine ⟨(serve first.before disk).1 :: results, ?_, by simp [hlength], ?_⟩
    · rw [memideRun, memideRw_eq (haccept first List.mem_cons_self)]
      simp only [bind, Except.bind, hrun]
      rfl
    · intro r request hrequest
      cases r with
      | zero =>
        obtain rfl : first = request := by simpa using hrequest
        rfl
      | succ r =>
        simp only [List.getElem?_cons_succ] at hrequest ⊢
        exact hresults r request hrequest

end Requests

/-- How far the holder of `idelock` is away from the state at rest. -/
inductive IdeStage (B : Type)
  | steady
  | unstarted
  | popped (b : B)

def IdeStage.taken {B : Type} : IdeStage B → ℕ
  | .popped _ => 1
  | _ => 0

def IdeStage.flying {B : Type} : IdeStage B → ℕ
  | .unstarted => 0
  | _ => 1

def IdePc.stage {B : Type} [DecidableEq B] (idequeue : Option B) :
    IdePc B → IdeStage B
  | .startTest b _ => if idequeue = some b then .unstarted else .steady
  | .start _ _ | .intrWake _ | .intrNext => .unstarted
  | .intrRead b | .intrValid b | .intrClean b => .popped b
  | _ => .steady

/-- The queue holds the requests that are not completed, and what has been
started and completed are the first requests. -/
structure QueueOk {B : Type} (arrived : List (IdeRequest B))
    (completed started : List B) (qnext : B → Option B) (idequeue : Option B)
    (stage : IdeStage B) : Prop where
  linked : Linked qnext idequeue
    ((arrived.drop (completed.length + stage.taken)).map (·.buf))
  completed_eq : completed = (arrived.take completed.length).map (·.buf)
  started_eq : started =
    (arrived.take (completed.length + stage.flying)).map (·.buf)
  popped : ∀ b, stage = .popped b →
    ∃ request, arrived[completed.length]? = some request ∧ request.buf = b

section Records

variable {B : Type} (disk : ℕ → Block) (arrived : List (IdeRequest B))
variable (done : ℕ)

/-- The drive has carried out the request number `done`. -/
def Performed (drive : IdeDrive) : Prop :=
  ∃ request, arrived[done]? = some request ∧
    drive.disk 1 = diskAfter disk (arrived.take (done + 1)) ∧
    (request.before.dirty = false → drive.latch =
      some (diskAfter disk (arrived.take done) request.before.blockno))

/-- The drive with `done` requests completed.  `signals` are the CPUs that
handle an interrupt and have not looked at the queue yet. -/
inductive DriveOk {C : Type} (drive : IdeDrive) (signals : C → Prop) :
    IdeStage B → Prop
  | quiet {stage : IdeStage B}
      (hstage : stage = .unstarted ∨ stage = .steady ∧ arrived.length = done)
      (hcommand : drive.command = none) (hirq : drive.irq = false)
      (hsignals : ∀ c, ¬ signals c)
      (hdisk : drive.disk 1 = diskAfter disk (arrived.take done)) :
      DriveOk drive signals stage
  | busy {request : IdeRequest B} (hrequest : arrived[done]? = some request)
      (hcommand : drive.command = some (ideCommand request.before))
      (hirq : drive.irq = false) (hsignals : ∀ c, ¬ signals c)
      (hdisk : drive.disk 1 = diskAfter disk (arrived.take done)) :
      DriveOk drive signals .steady
  | raised (hcommand : drive.command = none) (hirq : drive.irq = true)
      (hsignals : ∀ c, ¬ signals c) (hdisk : Performed disk arrived done drive) :
      DriveOk drive signals .steady
  | handled {c : C} (hcommand : drive.command = none)
      (hirq : drive.irq = false) (hsignals : ∀ d, signals d ↔ d = c)
      (hdisk : Performed disk arrived done drive) :
      DriveOk drive signals .steady
  | popped {b : B} (hcommand : drive.command = none)
      (hirq : drive.irq = false) (hsignals : ∀ c, ¬ signals c)
      (hdisk : Performed disk arrived done drive) :
      DriveOk drive signals (.popped b)

/-- The buffer `b` belongs to the request number `r`; once that is completed it
holds the result. -/
def Placed (buf : B → Buf) (b : B) (r : ℕ) : Prop :=
  ∃ request, arrived[r]? = some request ∧ request.buf = b ∧
    (r < done → buf b = resultAt disk arrived r request)

def IdePc.request : IdePc B → Option (B × ℕ)
  | .startTest b r | .start b r | .wait b r | .unlock b r => some (b, r)
  | _ => none

def UserOk (buf : B → Buf) (k : IdeUser B) : Prop :=
  (∀ b ∈ k.mine, (buf b).locked = true) ∧
    match k.pos with
    | .check b => b ∈ k.mine ∧ (buf b).dev = 1 ∧ (buf b).blockno < fssize
    | .acquire b | .setNext b | .find b _ | .link b _ =>
        b ∈ k.mine ∧ Acceptable (buf b)
    | .startTest b r | .start b r | .wait b r =>
        b ∈ k.mine ∧ Placed disk arrived done buf b r
    | .unlock b r =>
        b ∈ k.mine ∧ Placed disk arrived done buf b r ∧ r < done
    | _ => True

structure UsersOk {n : ℕ} (buf : B → Buf) (user : Fin n → IdeUser B)
    (taken : ℕ) : Prop where
  accept : ∀ request ∈ arrived, Acceptable request.before
  apart : ∀ p q b, b ∈ (user p).mine → b ∈ (user q).mine → p = q
  each : ∀ p, UserOk disk arrived done buf (user p)
  flight : ∀ r request, done ≤ r → arrived[r]? = some request →
    ∃ p, (user p).pos.request = some (request.buf, r)
  fresh : ∀ r request, done + taken ≤ r → arrived[r]? = some request →
    buf request.buf = request.before

def HolderOk (buf : B → Buf) (qnext : B → Option B) (idequeue : Option B) :
    IdePc B → Prop
  | .find b pp => qnext b = none ∧ ∃ passed rest,
      (arrived.drop done).map (·.buf) = passed ++ rest ∧
      pp = passed.getLast?
  | .link b pp => qnext b = none ∧
      pp = ((arrived.drop done).map (·.buf)).getLast?
  | .start b _ => idequeue = some b
  | .intrRead b => ∀ request, arrived[done]? = some request →
      buf b = request.before
  | .intrValid b => ∀ request, arrived[done]? = some request →
      buf b = { request.before with
        data := (resultAt disk arrived done request).data }
  | .intrClean b => ∀ request, arrived[done]? = some request →
      buf b = { request.before with
        data := (resultAt disk arrived done request).data
        valid := true }
  | _ => True

end Records

/-- The state of the driver, given the position of the holder of `idelock`, or
`idle` when it is free. -/
structure IdeOk {n : ℕ} {C B : Type} [DecidableEq B] (disk : ℕ → Block)
    (mem : IdeMem B) (user : Fin n → IdeUser B) (signals : C → Prop)
    (pos : IdePc B) : Prop where
  havedisk1 : mem.havedisk1 = true
  queue : QueueOk mem.arrived mem.completed mem.started mem.qnext mem.idequeue
    (pos.stage mem.idequeue)
  drive : DriveOk disk mem.arrived mem.completed.length mem.drive signals
    (pos.stage mem.idequeue)
  users : UsersOk disk mem.arrived mem.completed.length mem.buf user
    (pos.stage mem.idequeue).taken
  holder : HolderOk disk mem.arrived mem.completed.length mem.buf mem.qnext
    mem.idequeue pos

end Xv6Kernel
