import Xv6Kernel.CircularList
import Xv6Kernel.BufferCache

/-!
# The buffer cache under interleaving

`bio.c` with its linked list of buffers, used by any number of processes, over
the driver of `ide.c`.  Each step is a critical section, or a piece of code that
uses only a buffer whose lock the process has; the two loops of `bget` follow the
pointers `next` and `prev`.

A sleep-lock is given by the process that holds it.  A process changes, writes
and releases only buffers whose locks it holds.  The drive reports success or an
error for every command; `done` says whether a write that is reported as an error
has reached the disk.

The field `released` is a history that no code reads: the buffers whose reference
count went to zero, in order.
-/

namespace Xv6Kernel

open TraceExecution CircularList

/-- `struct buf` without its lock and links; `D` is what a block holds. -/
structure CacheBuf (D : Type) where
  dev : ℕ
  blockno : ℕ
  refcnt : ℤ
  valid : Bool
  dirty : Bool
  data : D
  deriving DecidableEq

/-- Where a process is in the code of `bio.c`. -/
inductive BcachePc
  | idle
  | lockWait (b : Fin nbuf)
  | readTest (b : Fin nbuf)
  | sync (b : Fin nbuf)
  | diskWait (b : Fin nbuf)
  | release (b : Fin nbuf)
  deriving DecidableEq

structure Bcache (P D : Type) where
  links : Links (Fin nbuf)
  buf : Fin nbuf → CacheBuf D
  owner : Fin nbuf → Option P
  idequeue : List (Fin nbuf)
  havedisk1 : Bool
  disk : ℕ → ℕ → D
  pc : P → BcachePc
  released : List (Fin nbuf)

inductive BcacheAction (D : Type)
  | bread (dev blockno : ℕ)
  | acquiresleep
  | readTest
  | iderw
  | wakeup
  | modify (b : Fin nbuf) (f : D → D)
  | logWrite (b : Fin nbuf)
  | bwrite (b : Fin nbuf)
  | brelse (b : Fin nbuf)
  | unref

inductive BcacheLabel (P D : Type)
  | code (p : P) (action : BcacheAction D)
  | interrupt (df err done : Bool)

namespace Bcache

variable {P D : Type} [DecidableEq P]

def setBuf (s : Bcache P D) (b : Fin nbuf) (v : CacheBuf D) : Bcache P D :=
  { s with buf := Function.update s.buf b v }

def setPc (s : Bcache P D) (p : P) (pc : BcachePc) : Bcache P D :=
  { s with pc := Function.update s.pc p pc }

def setOwner (s : Bcache P D) (b : Fin nbuf) (p : Option P) : Bcache P D :=
  { s with owner := Function.update s.owner b p }

def findCached (s : Bcache P D) (dev blockno : ℕ) : Option (Option (Fin nbuf)) :=
  search s.links.next
    (fun b => (s.buf b).dev = dev ∧ (s.buf b).blockno = blockno) (nbuf + 1)
    (s.links.next none)

def findUnused (s : Bcache P D) : Option (Option (Fin nbuf)) :=
  search s.links.prev
    (fun b => (s.buf b).refcnt = 0 ∧ (s.buf b).dirty = false) (nbuf + 1)
    (s.links.prev none)

def recycled (dev blockno : ℕ) (v : CacheBuf D) : CacheBuf D :=
  { v with
    dev := dev
    blockno := blockno
    refcnt := 1
    valid := false
    dirty := false }

def bget (s : Bcache P D) (p : P) (dev blockno : ℕ) : Outcome (Bcache P D) :=
  match s.findCached dev blockno with
  | some (some b) =>
      return (s.setBuf b { s.buf b with refcnt := (s.buf b).refcnt + 1 }).setPc p
        (.lockWait b)
  | some none =>
      match s.findUnused with
      | some (some b) =>
          return (s.setBuf b (recycled dev blockno (s.buf b))).setPc p (.lockWait b)
      | some none => panic "bget: no buffers"
      | none => blocked
  | none => blocked

/-- `iderw` up to the loop in which it waits; `idestart` looks at the block
number. -/
def iderw (s : Bcache P D) (p : P) (b : Fin nbuf) : Outcome (Bcache P D) := do
  ensure (s.owner b ≠ none) "iderw: buf not locked"
  ensure (¬ ((s.buf b).valid = true ∧ (s.buf b).dirty = false)) "iderw: nothing to do"
  ensure ((s.buf b).dev = 0 ∨ s.havedisk1 = true) "iderw: ide disk 1 not present"
  ensure (s.idequeue ≠ [] ∨ (s.buf b).blockno < fssize) "incorrect blockno"
  return { s with idequeue := s.idequeue ++ [b] }.setPc p (.diskWait b)

def unref (s : Bcache P D) (b : Fin nbuf) : Bcache P D :=
  let s := s.setBuf b { s.buf b with refcnt := (s.buf b).refcnt - 1 }
  if (s.buf b).refcnt = 0 then
    { s with
      links := pushFront (unlink s.links b) b
      released := s.released ++ [b] }
  else s

/-- What `ideintr` writes to the buffer of a command that has ended.  The data of
a read are transferred only if there was no error. -/
def served (failed : Bool) (found : D) (v : CacheBuf D) : CacheBuf D :=
  if v.dirty = false ∧ failed = false then
    { v with valid := true, dirty := false, data := found }
  else { v with valid := true, dirty := false }

def diskAfter (failed done : Bool) (v : CacheBuf D) (disk : ℕ → ℕ → D) : ℕ → ℕ → D :=
  if v.dirty = true ∧ (failed = false ∨ done = true) then
    Function.update disk (v.dev % 2)
      (Function.update (disk (v.dev % 2)) v.blockno v.data)
  else disk

def ideintr (s : Bcache P D) (failed done : Bool) : Outcome (Bcache P D) :=
  match s.idequeue with
  | [] => return s
  | b :: rest => do
      ensure (∀ c, rest.head? = some c → (s.buf c).blockno < fssize) "incorrect blockno"
      return { s.setBuf b (served failed
          (s.disk ((s.buf b).dev % 2) (s.buf b).blockno) (s.buf b)) with
        disk := diskAfter failed done (s.buf b) s.disk
        idequeue := rest }

/-- What a process does with a buffer whose lock it holds. -/
def use (s : Bcache P D) (p : P) (b : Fin nbuf) : Outcome Unit := do
  await (s.pc p = .idle)
  await (s.owner b = some p)

def perform (s : Bcache P D) : BcacheLabel P D → Outcome (Bcache P D)
  | .interrupt df err done => s.ideintr (df || err) done
  | .code p (.bread dev blockno) => do
      await (s.pc p = .idle)
      s.bget p dev blockno
  | .code p .acquiresleep =>
      match s.pc p with
      | .lockWait b => do
          await (s.owner b = none)
          return (s.setOwner b (some p)).setPc p (.readTest b)
      | _ => blocked
  | .code p .readTest =>
      match s.pc p with
      | .readTest b =>
          return s.setPc p (if (s.buf b).valid then .idle else .sync b)
      | _ => blocked
  | .code p .iderw =>
      match s.pc p with
      | .sync b => s.iderw p b
      | _ => blocked
  | .code p .wakeup =>
      match s.pc p with
      | .diskWait b => do
          await ((s.buf b).valid = true ∧ (s.buf b).dirty = false)
          return s.setPc p .idle
      | _ => blocked
  | .code p (.modify b f) => do
      s.use p b
      return s.setBuf b { s.buf b with data := f (s.buf b).data }
  | .code p (.logWrite b) => do
      s.use p b
      return s.setBuf b { s.buf b with dirty := true }
  | .code p (.bwrite b) => do
      s.use p b
      return (s.setBuf b { s.buf b with dirty := true }).setPc p (.sync b)
  | .code p (.brelse b) => do
      s.use p b
      return (s.setOwner b none).setPc p (.release b)
  | .code p .unref =>
      match s.pc p with
      | .release b => return (s.unref b).setPc p .idle
      | _ => blocked

def step : Bcache P D → BcacheLabel P D → Option (Bcache P D) := stepOf perform

def binit (m : Links (Fin nbuf)) : Links (Fin nbuf) :=
  (List.finRange nbuf).foldl pushFront
    ⟨Function.update m.next none none, Function.update m.prev none none⟩

/-- After `binit`, with no process in the cache. -/
structure Initial (s : Bcache P D) : Prop where
  links : ∃ m, s.links = binit m
  buf : ∀ b, (s.buf b).dev = 0 ∧ (s.buf b).blockno = 0 ∧ (s.buf b).refcnt = 0 ∧
    (s.buf b).valid = false ∧ (s.buf b).dirty = false
  owner : ∀ b, s.owner b = none
  idequeue : s.idequeue = []
  pc : ∀ p, s.pc p = .idle
  released : s.released = []

/-- The successful steps, with the guards that enable them. -/
inductive StepOk (s : Bcache P D) : BcacheLabel P D → Bcache P D → Prop
  | hit {p : P} {dev blockno : ℕ} {b : Fin nbuf} (hpc : s.pc p = .idle)
      (hfound : s.findCached dev blockno = some (some b)) :
      StepOk s (.code p (.bread dev blockno))
        ((s.setBuf b { s.buf b with refcnt := (s.buf b).refcnt + 1 }).setPc p
          (.lockWait b))
  | recycle {p : P} {dev blockno : ℕ} {b : Fin nbuf} (hpc : s.pc p = .idle)
      (hfound : s.findCached dev blockno = some none)
      (hunused : s.findUnused = some (some b)) :
      StepOk s (.code p (.bread dev blockno))
        ((s.setBuf b (recycled dev blockno (s.buf b))).setPc p (.lockWait b))
  | acquiresleep {p : P} {b : Fin nbuf} (hpc : s.pc p = .lockWait b)
      (hfree : s.owner b = none) :
      StepOk s (.code p .acquiresleep)
        ((s.setOwner b (some p)).setPc p (.readTest b))
  | readTest {p : P} {b : Fin nbuf} (hpc : s.pc p = .readTest b) :
      StepOk s (.code p .readTest)
        (s.setPc p (if (s.buf b).valid then .idle else .sync b))
  | iderw {p : P} {b : Fin nbuf} (hpc : s.pc p = .sync b) :
      StepOk s (.code p .iderw)
        ({ s with idequeue := s.idequeue ++ [b] }.setPc p (.diskWait b))
  | wakeup {p : P} {b : Fin nbuf} (hpc : s.pc p = .diskWait b)
      (hvalid : (s.buf b).valid = true) (hclean : (s.buf b).dirty = false) :
      StepOk s (.code p .wakeup) (s.setPc p .idle)
  | modify {p : P} {b : Fin nbuf} {f : D → D} (hpc : s.pc p = .idle)
      (howner : s.owner b = some p) :
      StepOk s (.code p (.modify b f))
        (s.setBuf b { s.buf b with data := f (s.buf b).data })
  | logWrite {p : P} {b : Fin nbuf} (hpc : s.pc p = .idle)
      (howner : s.owner b = some p) :
      StepOk s (.code p (.logWrite b)) (s.setBuf b { s.buf b with dirty := true })
  | bwrite {p : P} {b : Fin nbuf} (hpc : s.pc p = .idle)
      (howner : s.owner b = some p) :
      StepOk s (.code p (.bwrite b))
        ((s.setBuf b { s.buf b with dirty := true }).setPc p (.sync b))
  | brelse {p : P} {b : Fin nbuf} (hpc : s.pc p = .idle)
      (howner : s.owner b = some p) :
      StepOk s (.code p (.brelse b)) ((s.setOwner b none).setPc p (.release b))
  | unref {p : P} {b : Fin nbuf} (hpc : s.pc p = .release b) :
      StepOk s (.code p .unref) ((s.unref b).setPc p .idle)
  | spurious {df err done : Bool} (hqueue : s.idequeue = []) :
      StepOk s (.interrupt df err done) s
  | served {df err done : Bool} {b : Fin nbuf} {rest : List (Fin nbuf)}
      (hqueue : s.idequeue = b :: rest) :
      StepOk s (.interrupt df err done)
        { s.setBuf b (served (df || err)
            (s.disk ((s.buf b).dev % 2) (s.buf b).blockno) (s.buf b)) with
          disk := diskAfter (df || err) done (s.buf b) s.disk
          idequeue := rest }

theorem use_eq_ok {s : Bcache P D} {p : P} {b : Fin nbuf} {u : Unit} :
    s.use p b = .ok u ↔ s.pc p = .idle ∧ s.owner b = some p := by
  simp [use]

theorem bget_ok {s t : Bcache P D} {p : P} {dev blockno : ℕ} (hpc : s.pc p = .idle)
    (hget : s.bget p dev blockno = .ok t) : StepOk s (.code p (.bread dev blockno)) t := by
  unfold bget at hget
  split at hget
  next b hfound =>
    cases hget
    exact .hit hpc hfound
  next hfound =>
    split at hget
    next b hunused =>
      cases hget
      exact .recycle hpc hfound hunused
    next => cases hget
    next => cases hget
  next => cases hget

theorem step_ok {s t : Bcache P D} {label : BcacheLabel P D}
    (hstep : step s label = some t) : StepOk s label t := by
  simp only [step, stepOf_eq_some] at hstep
  cases label with
  | interrupt df err done =>
    simp only [perform, ideintr] at hstep
    split at hstep
    next hqueue =>
      cases hstep
      exact .spurious hqueue
    next b rest hqueue =>
      simp only [bind_eq_ok, pure_eq_ok] at hstep
      obtain ⟨_, _, rfl⟩ := hstep
      exact .served hqueue
  | code p action =>
    cases action with
    | bread dev blockno =>
      simp only [perform, bind_eq_ok, await_eq_ok] at hstep
      obtain ⟨_, hpc, hget⟩ := hstep
      exact bget_ok hpc hget
    | acquiresleep =>
      simp only [perform] at hstep
      split at hstep
      next b hpc =>
        simp only [bind_eq_ok, await_eq_ok, pure_eq_ok] at hstep
        obtain ⟨_, hfree, rfl⟩ := hstep
        exact .acquiresleep hpc hfree
      next => cases hstep
    | readTest =>
      simp only [perform] at hstep
      split at hstep
      next b hpc =>
        cases hstep
        exact .readTest hpc
      next => cases hstep
    | iderw =>
      simp only [perform] at hstep
      split at hstep
      next b hpc =>
        simp only [iderw, bind_eq_ok, pure_eq_ok] at hstep
        obtain ⟨_, _, _, _, _, _, _, _, rfl⟩ := hstep
        exact .iderw hpc
      next => cases hstep
    | wakeup =>
      simp only [perform] at hstep
      split at hstep
      next b hpc =>
        simp only [bind_eq_ok, await_eq_ok, pure_eq_ok] at hstep
        obtain ⟨_, ⟨hvalid, hclean⟩, rfl⟩ := hstep
        exact .wakeup hpc hvalid hclean
      next => cases hstep
    | modify b f =>
      simp only [perform, bind_eq_ok, use_eq_ok, pure_eq_ok] at hstep
      obtain ⟨_, ⟨hpc, howner⟩, rfl⟩ := hstep
      exact .modify hpc howner
    | logWrite b =>
      simp only [perform, bind_eq_ok, use_eq_ok, pure_eq_ok] at hstep
      obtain ⟨_, ⟨hpc, howner⟩, rfl⟩ := hstep
      exact .logWrite hpc howner
    | bwrite b =>
      simp only [perform, bind_eq_ok, use_eq_ok, pure_eq_ok] at hstep
      obtain ⟨_, ⟨hpc, howner⟩, rfl⟩ := hstep
      exact .bwrite hpc howner
    | brelse b =>
      simp only [perform, bind_eq_ok, use_eq_ok, pure_eq_ok] at hstep
      obtain ⟨_, ⟨hpc, howner⟩, rfl⟩ := hstep
      exact .brelse hpc howner
    | unref =>
      simp only [perform] at hstep
      split at hstep
      next b hpc =>
        cases hstep
        exact .unref hpc
      next => cases hstep

end Bcache

end Xv6Kernel
