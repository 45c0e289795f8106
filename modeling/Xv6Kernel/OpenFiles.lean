import Xv6Kernel.InodeLayer

/-!
# Open files, descriptors and pipes

The file table, the descriptors of all processes and the pages of pipes, under
the calls that create and drop references: `open`, `dup`, `close`, `pipe`,
`fork`, `exit` and `wait`.  Each operation is one critical section of the source,
or one access to fields that only the running process uses.

A pipe is known by the number of its allocation, so that the page of a pipe that
has been freed stays apart from a later pipe in the same memory.  What happens to
inodes, and how memory and process slots run out, is not decided here: a call
gets the inode that its path leads to, the new slot, the child that `wait` finds
and the success of `kalloc` or `copyuvm` as arguments.
-/

namespace Xv6Kernel

open TraceExecution ThreadPrograms

/-- The type of a `struct file`, with the pointer that goes with it. -/
inductive FileKind
  | none
  | pipe (a : ℕ)
  | inode (ip : ISlot)
  deriving DecidableEq

structure OpenFile where
  ref : ℤ
  kind : FileKind
  readable : Bool
  writable : Bool
  deriving DecidableEq

structure PipeEnds where
  readopen : Bool
  writeopen : Bool
  deriving DecidableEq

/-- The states of a process slot; `live` is any state in which it has code to
run. -/
inductive Life
  | unused
  | embryo
  | live
  | zombie
  deriving DecidableEq

structure OpenFiles (P : Type) where
  ftable : Fin nfile → OpenFile
  ofile : P → Fin nofile → Option (Fin nfile)
  pipe : ℕ → PipeEnds
  pipes : ℕ
  freed : List ℕ
  life : P → Life
  parent : P → Option P
  initproc : P

inductive FileOp (P : Type)
  | argfd (fd : Fin nofile)
  | fdalloc (f : Fin nfile)
  | fdclear (fd : Fin nofile)
  | filealloc
  | filedup (f : Fin nfile)
  | fileclose (f : Fin nfile)
  | setInode (f : Fin nfile) (ip : ISlot) (readable writable : Bool)
  | kalloc (memory : Bool)
  | setPipe (f : Fin nfile) (a : ℕ) (writable : Bool)
  | pipeclose (a : ℕ) (writable : Bool)
  | kfree (a : ℕ)
  | iput
  | allocproc (np : P)
  | freeproc (np : P)
  | setParent (np : P)
  | setChildFd (np : P) (fd : Fin nofile) (f : Fin nfile)
  | setRunnable (np : P)
  | exitBegin
  | exitEnd
  | reap (child : P)

@[reducible] def FileOp.Resp {P : Type} : FileOp P → Type
  | .argfd _ => Option (Fin nfile)
  | .fdalloc _ => Option (Fin nofile)
  | .filealloc => Option (Fin nfile)
  | .fileclose _ => Option OpenFile
  | .kalloc _ => Option ℕ
  | .pipeclose _ _ => Bool
  | _ => Unit

variable {P : Type}

namespace OpenFiles

def setFile (s : OpenFiles P) (f : Fin nfile) (file : OpenFile) : OpenFiles P :=
  { s with ftable := Function.update s.ftable f file }

def unusedFile (s : OpenFiles P) : Option (Fin nfile) :=
  (List.finRange nfile).find? fun f => (s.ftable f).ref = 0

def unusedFd (s : OpenFiles P) (p : P) : Option (Fin nofile) :=
  (List.finRange nofile).find? fun fd => s.ofile p fd = none

variable [DecidableEq P]

def setFd (s : OpenFiles P) (p : P) (fd : Fin nofile) (f : Option (Fin nfile)) : OpenFiles P :=
  { s with ofile := Function.update s.ofile p (Function.update (s.ofile p) fd f) }

def setLife (s : OpenFiles P) (p : P) (life : Life) : OpenFiles P :=
  { s with life := Function.update s.life p life }

end OpenFiles

/-- `pipeclose` up to the release of `p->lock`. -/
def PipeEnds.close (ends : PipeEnds) (writable : Bool) : PipeEnds :=
  if writable then { ends with writeopen := false }
  else { ends with readopen := false }

def FileOp.run [DecidableEq P] (p : P) :
    (o : FileOp P) → OpenFiles P → Outcome (o.Resp × OpenFiles P)
  | .argfd fd, s => pure (s.ofile p fd, s)
  | .fdalloc f, s =>
      match s.unusedFd p with
      | some fd => pure (some fd, s.setFd p fd (some f))
      | none => pure (none, s)
  | .fdclear fd, s => pure ((), s.setFd p fd none)
  | .filealloc, s =>
      match s.unusedFile with
      | some f => pure (some f, s.setFile f { s.ftable f with ref := 1 })
      | none => pure (none, s)
  | .filedup f, s => do
      ensure (¬ (s.ftable f).ref < 1) "filedup"
      return ((), s.setFile f { s.ftable f with ref := (s.ftable f).ref + 1 })
  | .fileclose f, s => do
      ensure (¬ (s.ftable f).ref < 1) "fileclose"
      if 0 < (s.ftable f).ref - 1 then
        return (none, s.setFile f { s.ftable f with ref := (s.ftable f).ref - 1 })
      else
        return (some { s.ftable f with ref := (s.ftable f).ref - 1 },
          s.setFile f { s.ftable f with ref := 0, kind := .none })
  | .setInode f ip readable writable, s =>
      pure ((), s.setFile f
        { s.ftable f with
          kind := .inode ip
          readable := readable
          writable := writable })
  | .kalloc memory, s =>
      if memory then
        pure (some s.pipes,
          { s with
            pipe := Function.update s.pipe s.pipes ⟨true, true⟩
            pipes := s.pipes + 1 })
      else pure (none, s)
  | .setPipe f a writable, s =>
      pure ((), s.setFile f
        { s.ftable f with
          kind := .pipe a
          readable := !writable
          writable := writable })
  | .pipeclose a writable, s =>
      let ends := (s.pipe a).close writable
      pure (!ends.readopen && !ends.writeopen,
        { s with pipe := Function.update s.pipe a ends })
  | .kfree a, s => pure ((), { s with freed := s.freed ++ [a] })
  | .iput, s => pure ((), s)
  | .allocproc np, s => do
      await (s.life np = .unused)
      return ((), s.setLife np .embryo)
  | .freeproc np, s => pure ((), s.setLife np .unused)
  | .setParent np, s =>
      pure ((), { s with parent := Function.update s.parent np (some p) })
  | .setChildFd np fd f, s => pure ((), s.setFd np fd (some f))
  | .setRunnable np, s => pure ((), s.setLife np .live)
  | .exitBegin, s => do
      ensure (p ≠ s.initproc) "init exiting"
      return ((), s)
  | .exitEnd, s =>
      pure ((),
        { s.setLife p .zombie with
          parent := fun q =>
            if s.parent q = some p then some s.initproc else s.parent q })
  | .reap child, s => do
      await (s.life child = .zombie ∧ s.parent child = some p)
      return ((),
        { s.setLife child .unused with
          parent := Function.update s.parent child none })

abbrev FileCode (P α : Type) := Prog (FileOp P) FileOp.Resp α

namespace FileCode

def fileOp (o : FileOp P) : FileCode P o.Resp := ThreadPrograms.perform o

def argfd (fd : ℤ) : FileCode P (Option (Fin nofile × Fin nfile)) :=
  if h : 0 ≤ fd ∧ fd < nofile then do
    let fd : Fin nofile := ⟨fd.toNat, by omega⟩
    let f : Option (Fin nfile) ← fileOp (.argfd fd)
    return f.map fun f => (fd, f)
  else return none

def pipeclose (a : ℕ) (writable : Bool) : FileCode P Unit := do
  let last : Bool ← fileOp (.pipeclose a writable)
  if last then fileOp (.kfree a) else return ()

def fileclose (f : Fin nfile) : FileCode P Unit := do
  let ff : Option OpenFile ← fileOp (.fileclose f)
  match ff with
  | none => return ()
  | some ff =>
      match ff.kind with
      | .pipe a => pipeclose a ff.writable
      | .inode _ => fileOp .iput
      | .none => return ()

def sysOpen (ip : ISlot) (readable writable : Bool) : FileCode P Unit := do
  let f : Option (Fin nfile) ← fileOp .filealloc
  match f with
  | none => fileOp .iput
  | some f =>
      let fd : Option (Fin nofile) ← fileOp (.fdalloc f)
      match fd with
      | none => do
          fileclose f
          fileOp .iput
      | some _ => fileOp (.setInode f ip readable writable)

def sysDup (fd : ℤ) : FileCode P Unit := do
  let arg ← argfd fd
  match arg with
  | none => return ()
  | some (_, f) =>
      let fd : Option (Fin nofile) ← fileOp (.fdalloc f)
      match fd with
      | none => return ()
      | some _ => fileOp (.filedup f)

def sysClose (fd : ℤ) : FileCode P Unit := do
  let arg ← argfd fd
  match arg with
  | none => return ()
  | some (fd, f) =>
      let _ ← fileOp (.fdclear fd)
      fileclose f

/-- The label `bad` of `pipealloc`, which is reached only without a page. -/
def pipeBad (f0 f1 : Option (Fin nfile)) :
    FileCode P (Option (Fin nfile × Fin nfile)) := do
  match f0 with
  | some f0 => fileclose f0
  | none => pure ()
  match f1 with
  | some f1 => fileclose f1
  | none => pure ()
  return none

def pipealloc (memory : Bool) : FileCode P (Option (Fin nfile × Fin nfile)) := do
  let f0 : Option (Fin nfile) ← fileOp .filealloc
  match f0 with
  | none => pipeBad none none
  | some f0 =>
      let f1 : Option (Fin nfile) ← fileOp .filealloc
      match f1 with
      | none => pipeBad (some f0) none
      | some f1 =>
          let page : Option ℕ ← fileOp (.kalloc memory)
          match page with
          | none => pipeBad (some f0) (some f1)
          | some a =>
              let _ ← fileOp (.setPipe f0 a false)
              let _ ← fileOp (.setPipe f1 a true)
              return some (f0, f1)

def sysPipe (memory : Bool) : FileCode P Unit := do
  let files ← pipealloc memory
  match files with
  | none => return ()
  | some (rf, wf) =>
      let fd0 : Option (Fin nofile) ← fileOp (.fdalloc rf)
      match fd0 with
      | none => do
          fileclose rf
          fileclose wf
      | some fd0 =>
          let fd1 : Option (Fin nofile) ← fileOp (.fdalloc wf)
          match fd1 with
          | some _ => return ()
          | none => do
              let _ ← fileOp (.fdclear fd0)
              fileclose rf
              fileclose wf

def forkFiles (np : P) : List (Fin nofile) → FileCode P Unit
  | [] => return ()
  | fd :: rest => do
      let f : Option (Fin nfile) ← fileOp (.argfd fd)
      match f with
      | none => forkFiles np rest
      | some f => do
          let _ ← fileOp (.filedup f)
          let _ ← fileOp (.setChildFd np fd f)
          forkFiles np rest

def fork (np : Option P) (memory : Bool) : FileCode P Unit :=
  match np with
  | none => return ()
  | some np => do
      let _ ← fileOp (.allocproc np)
      if memory then do
        let _ ← fileOp (.setParent np)
        forkFiles np (List.finRange nofile)
        fileOp (.setRunnable np)
      else fileOp (.freeproc np)

def exitFiles : List (Fin nofile) → FileCode P Unit
  | [] => return ()
  | fd :: rest => do
      let f : Option (Fin nfile) ← fileOp (.argfd fd)
      match f with
      | none => exitFiles rest
      | some f => do
          fileclose f
          let _ ← fileOp (.fdclear fd)
          exitFiles rest

def exit : FileCode P Unit := do
  let _ ← fileOp .exitBegin
  exitFiles (List.finRange nofile)
  let _ ← fileOp .iput
  fileOp .exitEnd

def wait (child : Option P) : FileCode P Unit :=
  match child with
  | none => return ()
  | some child => fileOp (.reap child)

end FileCode

inductive FileCall (P : Type)
  | sysOpen (ip : Option ISlot) (readable writable : Bool)
  | dup (fd : ℤ)
  | close (fd : ℤ)
  | pipe (memory : Bool)
  | fork (np : Option P) (memory : Bool)
  | exit
  | wait (child : Option P)

def FileCall.body : FileCall P → FileCode P Unit
  | .sysOpen none _ _ => return ()
  | .sysOpen (some ip) readable writable => FileCode.sysOpen ip readable writable
  | .dup fd => FileCode.sysDup fd
  | .close fd => FileCode.sysClose fd
  | .pipe memory => FileCode.sysPipe memory
  | .fork np memory => FileCode.fork np memory
  | .exit => FileCode.exit
  | .wait child => FileCode.wait child

abbrev FilesPool (P : Type) := Pool P (OpenFiles P) (FileOp P) FileOp.Resp

def filesSystem (P : Type) [DecidableEq P] :
    System P (OpenFiles P) (FileOp P) FileOp.Resp (FileCall P) where
  run := FileOp.run
  body := FileCall.body
  may := fun s p => s.shared.life p = .live

def filesBoot [DecidableEq P] (initproc : P) : FilesPool P where
  shared :=
    { ftable := fun _ => ⟨0, .none, false, false⟩
      ofile := fun _ _ => none
      pipe := fun _ => ⟨false, false⟩
      pipes := 0
      freed := []
      life := fun p => if p = initproc then .live else .unused
      parent := fun _ => none
      initproc := initproc }
  thread := fun _ => .ret ()

end Xv6Kernel
