import Xv6Kernel.ThreadPrograms
import Mathlib.Data.List.FinRange

/-!
# The inode layer

The state behind `fs.c` and `file.c`: the inodes on the disk, the inode cache,
the file table, and the working directory and open files of each process.  A
pointer to a `struct inode` is a slot of the cache.

Each operation below is one critical section of the source: what the code does
while it holds `icache.lock` or a buffer, or with fields that the lock of an
inode protects.  There is one device.  The contents of directories
are lists of entries; the bytes of other files are left out, and so are the
blocks that inodes occupy.
-/

namespace Xv6Kernel

open TraceExecution ThreadPrograms

abbrev ninode : ℕ := 50

abbrev nfile : ℕ := 100

abbrev nofile : ℕ := 16

instance : NeZero ninode := ⟨by decide⟩

instance : NeZero nfile := ⟨by decide⟩

instance : NeZero nofile := ⟨by decide⟩

abbrev dirsiz : ℕ := 14

abbrev rootino : ℕ := 1

/-- `sb.ninodes`, as `mkfs` writes it. -/
abbrev ninodes : ℕ := 200

/-- `MAXFILE * BSIZE / sizeof(struct dirent)`. -/
abbrev maxEntries : ℕ := 4480

abbrev ISlot := Fin ninode

/-- `none` is the type 0 of a free inode. -/
inductive FileType
  | none
  | dir
  | file
  | dev
  deriving DecidableEq, Repr

abbrev Name := List Char

def dot : Name := ['.']

def dotdot : Name := ['.', '.']

abbrev IsDot (name : Name) : Prop := name = dot ∨ name = dotdot

structure Dirent where
  inum : ℕ
  name : Name
  deriving DecidableEq, Repr

structure Dinode where
  type : FileType
  major : ℤ
  minor : ℤ
  nlink : ℤ
  entries : List Dirent
  deriving DecidableEq, Repr

/-- `struct inode`; `lock` is the process that has the sleep-lock. -/
structure Inode (P : Type) where
  inum : ℕ
  ref : ℤ
  lock : Option P
  valid : Bool
  type : FileType
  major : ℤ
  minor : ℤ
  nlink : ℤ

/-- `struct file`; without an inode its type is `FD_NONE`. -/
structure File where
  ref : ℤ
  ip : Option ISlot
  readable : Bool
  writable : Bool

structure FileSystem (P : Type) where
  dinode : ℕ → Dinode
  icache : ISlot → Inode P
  ftable : Fin nfile → File
  cwd : P → Option ISlot
  ofile : P → Fin nofile → Option (Fin nfile)

def short (n : ℤ) : ℤ := (n + 32768) % 65536 - 32768

def findEntry : List Dirent → Name → Option (ℕ × ℕ)
  | [], _ => none
  | de :: rest, name =>
      if de.inum ≠ 0 ∧ de.name = name then some (0, de.inum)
      else (findEntry rest name).map fun found => (found.1 + 1, found.2)

/-- The entry goes to the first position not in use, or to the end. -/
def insertEntry : List Dirent → Dirent → List Dirent
  | [], new => [new]
  | de :: rest, new =>
      if de.inum = 0 then new :: rest else de :: insertEntry rest new

def eraseEntry (entries : List Dirent) (off : ℕ) : List Dirent :=
  entries.set off ⟨0, []⟩

/-! ## Operations -/

/-- The function that takes or gives back the lock of an inode. -/
inductive Caller
  | ilock
  | iunlock
  | iput
  deriving DecidableEq, Repr

inductive FsOp
  | panic (msg : String)
  | iget (inum : ℕ)
  | idup (ip : ISlot)
  | ilockGuard (ip : ISlot)
  | acquiresleep (ip : ISlot) (caller : Caller)
  | load (ip : ISlot)
  | iunlockGuard (ip : ISlot)
  | releasesleep (ip : ISlot) (caller : Caller)
  | inode (ip : ISlot)
  | getRef (ip : ISlot)
  | ifree (ip : ISlot)
  | decRef (ip : ISlot)
  | addNlink (ip : ISlot) (change : ℤ)
  | initNode (ip : ISlot) (major minor : ℤ)
  | claim (inum : ℕ) (type : FileType)
  | lookup (dp : ISlot) (name : Name) (linking : Bool)
  | insert (dp : ISlot) (name : Name) (ip : ISlot)
  | erase (dp : ISlot) (off : ℕ)
  | isdirempty (dp : ISlot)
  | getCwd
  | setCwd (ip : Option ISlot)
  deriving DecidableEq, Repr

/-- The fields of an inode that its lock protects. -/
structure Node where
  valid : Bool
  type : FileType
  major : ℤ
  nlink : ℤ

@[reducible] def FsOp.Resp : FsOp → Type
  | .panic _ => Empty
  | .iget _ => ISlot
  | .load _ => FileType
  | .inode _ => Node
  | .getRef _ => ℤ
  | .claim _ _ => Bool
  | .lookup _ _ _ => Option (ℕ × ℕ)
  | .isdirempty _ => Bool
  | .getCwd => ISlot
  | _ => Unit

variable {P : Type}

namespace FileSystem

def setInode (s : FileSystem P) (ip : ISlot) (f : Inode P → Inode P) : FileSystem P :=
  { s with icache := Function.update s.icache ip (f (s.icache ip)) }

def setDinode (s : FileSystem P) (inum : ℕ) (f : Dinode → Dinode) : FileSystem P :=
  { s with dinode := Function.update s.dinode inum (f (s.dinode inum)) }

def iupdate (s : FileSystem P) (ip : ISlot) : FileSystem P :=
  let node := s.icache ip
  s.setDinode node.inum fun dip =>
    { dip with
      type := node.type
      major := node.major
      minor := node.minor
      nlink := node.nlink }

def entriesAt (s : FileSystem P) (dp : ISlot) : List Dirent :=
  (s.dinode (s.icache dp).inum).entries

@[simp] theorem setInode_icache_self (s : FileSystem P) (ip : ISlot) (f : Inode P → Inode P) :
    (s.setInode ip f).icache ip = f (s.icache ip) := by
  simp [setInode]

theorem setInode_icache_of_ne (s : FileSystem P) {ip e : ISlot} (f : Inode P → Inode P)
    (he : e ≠ ip) : (s.setInode ip f).icache e = s.icache e := by
  simp [setInode, he]

@[simp] theorem setInode_dinode (s : FileSystem P) (ip : ISlot)
    (f : Inode P → Inode P) : (s.setInode ip f).dinode = s.dinode := rfl

@[simp] theorem setDinode_icache (s : FileSystem P) (inum : ℕ)
    (f : Dinode → Dinode) : (s.setDinode inum f).icache = s.icache := rfl

@[simp] theorem setDinode_self (s : FileSystem P) (inum : ℕ) (f : Dinode → Dinode) :
    (s.setDinode inum f).dinode inum = f (s.dinode inum) := by
  simp [setDinode]

theorem setDinode_of_ne (s : FileSystem P) {inum x : ℕ} (f : Dinode → Dinode)
    (hx : x ≠ inum) : (s.setDinode inum f).dinode x = s.dinode x := by
  simp [setDinode, hx]

@[simp] theorem iupdate_icache (s : FileSystem P) (ip : ISlot) :
    (s.iupdate ip).icache = s.icache := rfl

def cachedSlot (s : FileSystem P) (inum : ℕ) : Option ISlot :=
  (List.finRange ninode).find? fun ip =>
    0 < (s.icache ip).ref ∧ (s.icache ip).inum = inum

def emptySlot (s : FileSystem P) : Option ISlot :=
  (List.finRange ninode).find? fun ip => (s.icache ip).ref = 0

end FileSystem

def FsOp.run [DecidableEq P] (p : P) : (o : FsOp) → FileSystem P → Outcome (o.Resp × FileSystem P)
  | .panic msg, _ => TraceExecution.panic msg
  | .iget inum, s =>
      match s.cachedSlot inum with
      | some ip =>
          .ok (ip, s.setInode ip fun node => { node with ref := node.ref + 1 })
      | none =>
          match s.emptySlot with
          | some ip =>
              .ok (ip, s.setInode ip fun node =>
                { node with inum := inum, ref := 1, valid := false })
          | none => TraceExecution.panic "iget: no inodes"
  | .idup ip, s =>
      .ok ((), s.setInode ip fun node => { node with ref := node.ref + 1 })
  | .ilockGuard ip, s => do
      ensure (¬ (s.icache ip).ref < 1) "ilock"
      return ((), s)
  | .acquiresleep ip _, s => do
      await ((s.icache ip).lock = none)
      return ((), s.setInode ip fun node => { node with lock := some p })
  | .load ip, s => do
      let node := s.icache ip
      if node.valid then return (node.type, s)
      else
        let dip := s.dinode node.inum
        ensure (dip.type ≠ .none) "ilock: no type"
        return (dip.type, s.setInode ip fun node =>
          { node with
            valid := true
            type := dip.type
            major := dip.major
            minor := dip.minor
            nlink := dip.nlink })
  | .iunlockGuard ip, s => do
      ensure (¬ ((s.icache ip).lock = none ∨ (s.icache ip).ref < 1)) "iunlock"
      return ((), s)
  | .releasesleep ip _, s =>
      .ok ((), s.setInode ip fun node => { node with lock := none })
  | .inode ip, s =>
      let node := s.icache ip
      .ok (⟨node.valid, node.type, node.major, node.nlink⟩, s)
  | .getRef ip, s => .ok ((s.icache ip).ref, s)
  | .ifree ip, s =>
      let s := s.setDinode (s.icache ip).inum fun dip => { dip with entries := [] }
      let s := (s.setInode ip fun node => { node with type := .none }).iupdate ip
      .ok ((), s.setInode ip fun node => { node with valid := false })
  | .decRef ip, s =>
      .ok ((), s.setInode ip fun node => { node with ref := node.ref - 1 })
  | .addNlink ip change, s =>
      .ok ((), (s.setInode ip fun node =>
        { node with nlink := short (node.nlink + change) }).iupdate ip)
  | .initNode ip major minor, s =>
      .ok ((), (s.setInode ip fun node =>
        { node with major := major, minor := minor, nlink := 1 }).iupdate ip)
  | .claim inum type, s =>
      if (s.dinode inum).type = .none then
        .ok (true, s.setDinode inum fun _ => ⟨type, 0, 0, 0, []⟩)
      else .ok (false, s)
  | .lookup dp name _, s => do
      ensure ((s.icache dp).type = .dir) "dirlookup not DIR"
      return (findEntry (s.entriesAt dp) name, s)
  | .insert dp name ip, s => do
      let entries := insertEntry (s.entriesAt dp) ⟨(s.icache ip).inum, name⟩
      ensure (entries.length ≤ maxEntries) "dirlink"
      return ((), s.setDinode (s.icache dp).inum fun dip =>
        { dip with entries := entries })
  | .erase dp off, s =>
      .ok ((), s.setDinode (s.icache dp).inum fun dip =>
        { dip with entries := eraseEntry dip.entries off })
  | .isdirempty dp, s =>
      .ok (((s.entriesAt dp).drop 2).all fun de => de.inum = 0, s)
  | .getCwd, s => do
      let cwd ← awaitSome (s.cwd p)
      return (cwd, s)
  | .setCwd ip, s => .ok ((), { s with cwd := Function.update s.cwd p ip })

end Xv6Kernel
