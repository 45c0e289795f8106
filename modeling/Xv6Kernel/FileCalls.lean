import Xv6Kernel.InodeLayer

/-!
# The code of the file system calls

`fs.c` from `ialloc` to `namex`, and the calls of `sysfile.c` that change names
or the working directory.  The transaction brackets `begin_op` and `end_op` are
left out.
-/

namespace Xv6Kernel

open TraceExecution ThreadPrograms

abbrev FsCode (α : Type) := Prog FsOp FsOp.Resp α

def fsOp (o : FsOp) : FsCode o.Resp := perform o

def fsPanic {α : Type} (msg : String) : FsCode α :=
  .op (.panic msg) fun r : Empty => r.elim

def iget (inum : ℕ) : FsCode ISlot := fsOp (.iget inum)

def idup (ip : ISlot) : FsCode ISlot := do
  let _ ← fsOp (.idup ip)
  return ip

def ilock (ip : ISlot) : FsCode Unit := do
  let _ ← fsOp (.ilockGuard ip)
  let _ ← fsOp (.acquiresleep ip .ilock)
  let _ ← fsOp (.load ip)

def iunlock (ip : ISlot) : FsCode Unit := do
  let _ ← fsOp (.iunlockGuard ip)
  let _ ← fsOp (.releasesleep ip .iunlock)

def dropRef (ip : ISlot) : FsCode Unit := do
  let _ ← fsOp (.releasesleep ip .iput)
  let _ ← fsOp (.decRef ip)

def iput (ip : ISlot) : FsCode Unit := do
  let _ ← fsOp (.acquiresleep ip .iput)
  let node : Node ← fsOp (.inode ip)
  if node.valid ∧ node.nlink = 0 then
    let r : ℤ ← fsOp (.getRef ip)
    if r = 1 then
      let _ ← fsOp (.ifree ip)
      dropRef ip
    else dropRef ip
  else dropRef ip

def iunlockput (ip : ISlot) : FsCode Unit := do
  iunlock ip
  iput ip

def iallocFrom (type : FileType) : List ℕ → FsCode ISlot
  | [] => fsPanic "ialloc: no inodes"
  | inum :: rest => do
      let free : Bool ← fsOp (.claim inum type)
      if free then iget inum else iallocFrom type rest

def ialloc (type : FileType) : FsCode ISlot :=
  iallocFrom type (List.range' 1 (ninodes - 1))

def dirlookup (dp : ISlot) (name : Name) (linking : Bool) :
    FsCode (Option (ISlot × ℕ)) := do
  let found : Option (ℕ × ℕ) ← fsOp (.lookup dp name linking)
  match found with
  | none => return none
  | some (off, inum) =>
      let ip ← iget inum
      return some (ip, off)

/-- The new entry gets the number of the inode in slot `ip`, which is what every
caller passes.  The result says whether the entry has been written. -/
def dirlink (dp : ISlot) (name : Name) (ip : ISlot) : FsCode Bool := do
  let found ← dirlookup dp name true
  match found with
  | some (other, _) =>
      iput other
      return false
  | none =>
      let _ ← fsOp (.insert dp name ip)
      return true

def skipelem (path : List Char) : Option (Name × List Char) :=
  let path := path.dropWhile (· = '/')
  if path = [] then none
  else some ((path.takeWhile (· ≠ '/')).take dirsiz,
    (path.dropWhile (· ≠ '/')).dropWhile (· = '/'))

def elementsUpTo : ℕ → List Char → List Name
  | 0, _ => []
  | n + 1, path =>
      match skipelem path with
      | none => []
      | some (name, rest) => name :: elementsUpTo n rest

def elements (path : List Char) : List Name := elementsUpTo path.length path

/-- The loop of `namex` over the path elements that are left.  With `parent` it
stops one level early. -/
def walk (parent : Bool) : ISlot → List Name → FsCode (Option (ISlot × Name))
  | ip, [] =>
      if parent then do
        iput ip
        return none
      else return some (ip, [])
  | ip, name :: rest => do
      ilock ip
      let node : Node ← fsOp (.inode ip)
      if node.type ≠ .dir then
        iunlockput ip
        return none
      else if parent ∧ rest = [] then
        iunlock ip
        return some (ip, name)
      else
        let found ← dirlookup ip name false
        match found with
        | none =>
            iunlockput ip
            return none
        | some (next, _) =>
            iunlockput ip
            walk parent next rest

def namex (path : List Char) (parent : Bool) : FsCode (Option (ISlot × Name)) := do
  if path.head? = some '/' then
    let ip ← iget rootino
    walk parent ip (elements path)
  else
    let cwd : ISlot ← fsOp .getCwd
    let ip ← idup cwd
    walk parent ip (elements path)

def namei (path : List Char) : FsCode (Option ISlot) := do
  let found ← namex path false
  return found.map Prod.fst

def nameiparent (path : List Char) : FsCode (Option (ISlot × Name)) :=
  namex path true

def sysLink (old new : List Char) : FsCode Unit := do
  let found ← namei old
  match found with
  | none => return ()
  | some ip =>
      ilock ip
      let node : Node ← fsOp (.inode ip)
      if node.type = .dir then iunlockput ip
      else
        let _ ← fsOp (.addNlink ip 1)
        iunlock ip
        let parent ← nameiparent new
        match parent with
        | none => bad ip
        | some (dp, name) =>
            ilock dp
            let linked ← dirlink dp name ip
            iunlockput dp
            if linked then iput ip else bad ip
where
  bad (ip : ISlot) : FsCode Unit := do
    ilock ip
    let _ ← fsOp (.addNlink ip (-1))
    iunlockput ip

def sysUnlink (path : List Char) : FsCode Unit := do
  let parent ← nameiparent path
  match parent with
  | none => return ()
  | some (dp, name) =>
      ilock dp
      if IsDot name then iunlockput dp
      else
        let found ← dirlookup dp name false
        match found with
        | none => iunlockput dp
        | some (ip, off) =>
            ilock ip
            let node : Node ← fsOp (.inode ip)
            if node.nlink < 1 then fsPanic "unlink: nlink < 1"
            else
              let empty : Bool ←
                if node.type = .dir then fsOp (.isdirempty ip) else pure true
              if node.type = .dir ∧ ¬ empty then
                iunlockput ip
                iunlockput dp
              else
                let _ ← fsOp (.erase dp off)
                if node.type = .dir then
                  let _ ← fsOp (.addNlink dp (-1))
                iunlockput dp
                let _ ← fsOp (.addNlink ip (-1))
                iunlockput ip

def createNew (dp : ISlot) (name : Name) (type : FileType) (major minor : ℤ) :
    FsCode ISlot := do
  let ip ← ialloc type
  ilock ip
  let _ ← fsOp (.initNode ip major minor)
  if type = .dir then
    let _ ← fsOp (.addNlink dp 1)
    createDots dp ip
  let linked ← dirlink dp name ip
  if linked then
    iunlockput dp
    return ip
  else fsPanic "create: dirlink"
where
  createDots (dp ip : ISlot) : FsCode Unit := do
    let first ← dirlink ip dot ip
    if first then
      let second ← dirlink ip dotdot dp
      if second then return () else fsPanic "create dots"
    else fsPanic "create dots"

def create (path : List Char) (type : FileType) (major minor : ℤ) :
    FsCode (Option ISlot) := do
  let parent ← nameiparent path
  match parent with
  | none => return none
  | some (dp, name) =>
      ilock dp
      let found ← dirlookup dp name false
      match found with
      | some (ip, _) =>
          iunlockput dp
          ilock ip
          let node : Node ← fsOp (.inode ip)
          if type = .file ∧ node.type = .file then return some ip
          else
            iunlockput ip
            return none
      | none =>
          let ip ← createNew dp name type major minor
          return some ip

def sysMknod (path : List Char) (type : FileType) (major minor : ℤ) :
    FsCode Unit := do
  let created ← create path type major minor
  match created with
  | none => return ()
  | some ip => iunlockput ip

def sysChdir (path : List Char) : FsCode Unit := do
  let found ← namei path
  match found with
  | none => return ()
  | some ip =>
      ilock ip
      let node : Node ← fsOp (.inode ip)
      if node.type ≠ .dir then iunlockput ip
      else
        iunlock ip
        let cwd : ISlot ← fsOp .getCwd
        iput cwd
        let _ ← fsOp (.setCwd (some ip))

inductive Syscall
  | link (old new : List Char)
  | unlink (path : List Char)
  | mkdir (path : List Char)
  | mknod (path : List Char) (major minor : ℤ)
  | chdir (path : List Char)
  deriving DecidableEq, Repr

def Syscall.code : Syscall → FsCode Unit
  | .link old new => sysLink old new
  | .unlink path => sysUnlink path
  | .mkdir path => sysMknod path .dir 0 0
  | .mknod path major minor => sysMknod path .dev (short major) (short minor)
  | .chdir path => sysChdir path

abbrev FsPool (P : Type) := Pool P (FileSystem P) FsOp FsOp.Resp

end Xv6Kernel
