import Xv6Kernel.BufferCache
import Xv6Kernel.InodeLayer
import Xv6Kernel.LogSystem
import Xv6Kernel.WordBytes

/-!
# Blocks and the contents of inodes

The part of `fs.c` that allocates blocks and moves bytes, for one process at a
time.  The disk is seen through the buffer cache, as the three arrays that the
super block describes: the inode table, the free map and the data blocks.  The
state also has what the calls above share: the inode cache, the file table, and
the working directory and open files of each process.

Of the log there are `outstanding` and the block numbers in its header, `logged`,
which `log_write` counts; what becomes of the blocks is modelled in `LogDisk` and
`LogCommit`.
-/

namespace Xv6Kernel

open TraceExecution StateHoare WordBytes

abbrev bsize : ℕ := 512

abbrev ndirect : ℕ := 12

/-- `BSIZE / sizeof(uint)`. -/
abbrev nindirect : ℕ := 128

abbrev maxfile : ℕ := ndirect + nindirect

/-- `BSIZE / sizeof(struct dinode)`. -/
abbrev ipb : ℕ := 8

/-- `BSIZE * 8`. -/
abbrev bpb : ℕ := 4096

/-- The super block as `mkfs` computes it: the boot block and the super block,
the log, the inodes, the free map, and then the data. -/
structure Superblock where
  size : ℕ
  ninodes : ℕ
  nlog : ℕ
  fits : 2 + nlog + (ninodes / ipb + 1) + (size / bpb + 1) ≤ size
  small : size < 2 ^ 32

theorem fssize_fits : 2 + 30 + (ninodes / ipb + 1) + (fssize / bpb + 1) ≤ fssize := by decide

theorem fssize_small : fssize < 2 ^ 32 := by decide

namespace Superblock

def inodestart (sb : Superblock) : ℕ := 2 + sb.nlog

def bmapstart (sb : Superblock) : ℕ := sb.inodestart + (sb.ninodes / ipb + 1)

def nmeta (sb : Superblock) : ℕ := sb.bmapstart + (sb.size / bpb + 1)

/-- `IBLOCK`: the block containing inode `inum`. -/
def iblock (sb : Superblock) (inum : ℕ) : ℕ := inum / ipb + sb.inodestart

/-- `BBLOCK`: the block of the free map containing the bit for block `b`. -/
def bblock (sb : Superblock) (b : ℕ) : ℕ := b / bpb + sb.bmapstart

def IsData (sb : Superblock) (b : ℕ) : Prop := sb.nmeta ≤ b ∧ b < sb.size

end Superblock

/-- `struct dinode`. -/
structure DiskNode where
  type : FileType
  major : ℤ
  minor : ℤ
  nlink : ℤ
  size : BitVec 32
  addrs : Fin (ndirect + 1) → ℕ

def DiskNode.setAddr (node : DiskNode) (i : Fin (ndirect + 1)) (addr : ℕ) : DiskNode :=
  { node with addrs := Function.update node.addrs i addr }

/-- `struct inode`; `node` is the copy of the inode on disk. -/
structure CoreNode (P : Type) where
  inum : ℕ
  ref : ℤ
  lock : Option P
  valid : Bool
  node : DiskNode

/-- `struct file`; without an inode its type is `FD_NONE`. -/
structure VolFile where
  ref : ℤ
  ip : Option ISlot
  readable : Bool
  writable : Bool
  off : BitVec 32

structure Volume (P : Type) where
  sb : Superblock
  dinode : ℕ → DiskNode
  bitmap : ℕ → Bool
  data : ℕ → Block
  outstanding : ℤ
  logged : List ℕ
  icache : ISlot → CoreNode P
  ftable : Fin nfile → VolFile
  cwd : P → Option ISlot
  ofile : P → Fin nofile → Option (Fin nfile)

abbrev ndev : ℕ := 10

/-- An entry of `devsw`.  The functions are what the driver answers; that the
console gives up the inode while it waits does not matter for one process. -/
structure Driver where
  read : Option (BitVec 32 → Option (List Byte))
  write : Option ((ℕ → Byte) → BitVec 32 → Option (BitVec 32))

abbrev Devsw := Fin ndev → Driver

def Devsw.driver (devsw : Devsw) (major : ℤ) : Option Driver :=
  if hmajor : 0 ≤ major ∧ major < ndev then
    some (devsw ⟨major.toNat, by omega⟩)
  else none

variable {P : Type}

abbrev Vol (P α : Type) := EStateM Stop (Volume P) α

def volPanic {α : Type} (msg : String) : Vol P α := throw (.panic msg)

section DiskNode

variable (node : DiskNode) (i : Fin (ndirect + 1)) (addr : ℕ)

@[simp] theorem DiskNode.setAddr_type : (node.setAddr i addr).type = node.type := rfl

@[simp] theorem DiskNode.setAddr_size : (node.setAddr i addr).size = node.size := rfl

@[simp] theorem DiskNode.setAddr_addrs :
    (node.setAddr i addr).addrs = Function.update node.addrs i addr := rfl

end DiskNode

namespace Volume

def setCore (s : Volume P) (ip : ISlot) (f : CoreNode P → CoreNode P) : Volume P :=
  { s with icache := Function.update s.icache ip (f (s.icache ip)) }

def setNode (s : Volume P) (ip : ISlot) (f : DiskNode → DiskNode) : Volume P :=
  s.setCore ip fun core => { core with node := f core.node }

def setAddr (s : Volume P) (ip : ISlot) (i : Fin (ndirect + 1)) (addr : ℕ) : Volume P :=
  s.setNode ip fun node => node.setAddr i addr

def setBit (s : Volume P) (b : ℕ) (used : Bool) : Volume P :=
  { s with bitmap := Function.update s.bitmap b used }

def setData (s : Volume P) (b : ℕ) (block : Block) : Volume P :=
  { s with data := Function.update s.data b block }

/-- A block that is in the log already is absorbed. -/
def record (s : Volume P) (b : ℕ) : Volume P :=
  { s with logged := if b ∈ s.logged then s.logged else s.logged ++ [b] }

def unlogged (s : Volume P) : Volume P := { s with logged := [] }

/-- `log.lh.n >= LOGSIZE || log.lh.n >= log.size - 1`. -/
abbrev LogFull (s : Volume P) : Prop :=
  logSize ≤ s.logged.length ∨ s.sb.nlog ≤ s.logged.length + 1

@[simp] theorem setCore_self (s : Volume P) (ip : ISlot) (f : CoreNode P → CoreNode P) :
    (s.setCore ip f).icache ip = f (s.icache ip) := by
  simp [setCore]

theorem setCore_of_ne (s : Volume P) {ip e : ISlot} (f : CoreNode P → CoreNode P)
    (he : e ≠ ip) : (s.setCore ip f).icache e = s.icache e := by
  simp [setCore, he]

@[simp] theorem setNode_self (s : Volume P) (ip : ISlot) (f : DiskNode → DiskNode) :
    (s.setNode ip f).icache ip =
      { s.icache ip with node := f (s.icache ip).node } :=
  setCore_self s ip _

@[simp] theorem setAddr_self (s : Volume P) (ip : ISlot) (i : Fin (ndirect + 1)) (addr : ℕ) :
    (s.setAddr ip i addr).icache ip =
      { s.icache ip with node := (s.icache ip).node.setAddr i addr } :=
  setNode_self s ip _

@[simp] theorem setAddr_data (s : Volume P) (ip : ISlot) (i : Fin (ndirect + 1))
    (addr : ℕ) : (s.setAddr ip i addr).data = s.data := rfl

@[simp] theorem setAddr_dinode (s : Volume P) (ip : ISlot) (i : Fin (ndirect + 1))
    (addr : ℕ) : (s.setAddr ip i addr).dinode = s.dinode := rfl

def freeBlock (s : Volume P) : Option ℕ :=
  (List.range s.sb.size).find? fun b => s.bitmap b = false

end Volume

namespace Vol

def logWrite (b : ℕ) : Vol P PUnit := do
  let s ← get
  if s.LogFull then volPanic "too big a transaction"
  else if s.outstanding < 1 then volPanic "log_write outside of trans"
  else modify (·.record b)

def bzero (b : ℕ) : Vol P PUnit := do
  modify (·.setData b fun _ => 0)
  logWrite b

def balloc : Vol P ℕ := do
  let s ← get
  match s.freeBlock with
  | some b =>
      modify (·.setBit b true)
      logWrite (s.sb.bblock b)
      bzero b
      return b
  | none => volPanic "balloc: out of blocks"

def iupdate (ip : ISlot) : Vol P PUnit := do
  let s ← get
  let core := s.icache ip
  modify fun s => { s with dinode := Function.update s.dinode core.inum core.node }
  logWrite (s.sb.iblock core.inum)

/-- `ip->addrs[i]`, with a new block if it is 0. -/
def mapAddr (ip : ISlot) (i : Fin (ndirect + 1)) : Vol P ℕ := do
  let s ← get
  let addr := (s.icache ip).node.addrs i
  if addr = 0 then do
    let addr ← balloc
    modify (·.setAddr ip i addr)
    return addr
  else return addr

/-- `a[j]` of the indirect block `b`, with a new block if it is 0. -/
def mapWord (b : ℕ) (j : Fin nindirect) : Vol P ℕ := do
  let s ← get
  let word := s.data b j
  if word = 0 then do
    let addr ← balloc
    modify fun s =>
      s.setData b (Function.update (s.data b) j (BitVec.ofNat 32 addr))
    logWrite b
    return addr
  else return word.toNat

def bmap (ip : ISlot) (bn : ℕ) : Vol P ℕ :=
  if hbn : bn < ndirect then mapAddr ip ⟨bn, Nat.lt_add_one_of_lt hbn⟩
  else if hbn : bn - ndirect < nindirect then do
    let b ← mapAddr ip (Fin.last ndirect)
    mapWord b ⟨bn - ndirect, hbn⟩
  else volPanic "bmap: out of range"

/-! ## Contents

After the checks the sums do not wrap, so the loops count in `ℕ`; `fuel` bounds
the rounds, each of which moves at least one byte. -/

def readLoop (ip : ISlot) (n : ℕ) : ℕ → ℕ → ℕ → Vol P (List Byte)
  | 0, _, _ => return []
  | fuel + 1, tot, off =>
      if tot < n then do
        let b ← bmap ip (off / bsize)
        let s ← get
        let m := min (n - tot) (bsize - off % bsize)
        let piece := (List.range m).map fun k => byteAt (s.data b) (off % bsize + k)
        let rest ← readLoop ip n fuel (tot + m) (off + m)
        return piece ++ rest
      else return []

/-- The result `none` is -1; otherwise the bytes have been copied. -/
def readi (devsw : Devsw) (ip : ISlot) (off n : BitVec 32) :
    Vol P (Option (List Byte)) := do
  let s ← get
  let node := (s.icache ip).node
  let size := node.size
  if node.type = .dev then
    return (devsw.driver node.major).bind fun driver => driver.read.bind (· n)
  else if size < off ∨ off + n < off then return none
  else do
    let n := if size < off + n then size - off else n
    let bytes ← readLoop ip n.toNat n.toNat 0 off.toNat
    return some bytes

def writeLoop (ip : ISlot) (src : ℕ → Byte) (n : ℕ) :
    ℕ → ℕ → ℕ → Vol P PUnit
  | 0, _, _ => pure ()
  | fuel + 1, tot, off =>
      if tot < n then do
        let b ← bmap ip (off / bsize)
        let m := min (n - tot) (bsize - off % bsize)
        modify fun s => s.setData b
          (patch (s.data b) (off % bsize) m fun k => src (tot + k))
        logWrite b
        writeLoop ip src n fuel (tot + m) (off + m)
      else pure ()

def writei (devsw : Devsw) (ip : ISlot) (src : ℕ → Byte) (off n : BitVec 32) :
    Vol P (Option (BitVec 32)) := do
  let s ← get
  let node := (s.icache ip).node
  let size := node.size
  if node.type = .dev then
    return (devsw.driver node.major).bind fun driver => driver.write.bind (· src n)
  else if size < off ∨ off + n < off then return none
  else if BitVec.ofNat 32 (maxfile * bsize) < off + n then return none
  else do
    writeLoop ip src n.toNat n.toNat 0 off.toNat
    let s ← get
    if 0 < n ∧ (s.icache ip).node.size < off + n then do
      modify (·.setNode ip fun node => { node with size := off + n })
      iupdate ip
    else pure ()
    return some n

end Vol

end Xv6Kernel
