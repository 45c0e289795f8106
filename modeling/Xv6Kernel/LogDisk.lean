import Xv6Kernel.BufferCache
import Xv6Kernel.LogSystem

/-!
# The log on the disk

The functions of `log.c` that read and write blocks.  One process at a time
runs them here: what `LogSystem` says about sleeping and waking is left out, and
a `begin_op` that would have to wait stops the run.

A session is a boot followed by file system operations, which begin, hold and
release buffers, change the block in a held buffer and log it, and end.
Operations may overlap, and the last `end_op` of a group commits it.
-/

namespace Xv6Kernel

open TraceExecution StateHoare RedoLog

/-- A word of a block, read as the C code reads an array of 32-bit integers. -/
def wordAt (data : Block) (i : ℕ) : BitVec 32 :=
  if h : i < 128 then data ⟨i, h⟩ else 0

def headerBlocks (data : Block) : List ℕ :=
  (List.range (wordAt data 0).toInt.toNat).map fun i =>
    (wordAt data (i + 1)).toNat

def encodeHeader (block : List ℕ) (data : Block) : Block := fun i =>
  if i.val = 0 then BitVec.ofNat 32 block.length
  else if h : i.val - 1 < block.length then BitVec.ofNat 32 (block.get ⟨i.val - 1, h⟩)
  else data i

def setLog (f : Log → Log) : Fs PUnit :=
  modify fun m => { m with log := f m.log }

def readHead : Fs PUnit := do
  let m ← get
  let buf ← bread rootdev m.log.start
  let m ← get
  setLog fun log => { log with block := headerBlocks (m.buf buf).data }
  brelse buf

def writeHead : Fs PUnit := do
  let m ← get
  let buf ← bread rootdev m.log.start
  let m ← get
  setBuf buf fun b => { b with data := encodeHeader m.log.block (m.buf buf).data }
  bwrite buf
  brelse buf

def installOne (tail : ℕ) : Fs PUnit := do
  let m ← get
  let lbuf ← bread rootdev (m.log.start + tail + 1)
  let dbuf ← bread rootdev (m.log.block.getD tail 0)
  let m ← get
  setBuf dbuf fun b => { b with data := (m.buf lbuf).data }
  bwrite dbuf
  brelse lbuf
  brelse dbuf

def installTrans : Fs PUnit := do
  let m ← get
  (List.range m.log.block.length).forM installOne

def writeLogOne (tail : ℕ) : Fs PUnit := do
  let m ← get
  let toBuf ← bread rootdev (m.log.start + tail + 1)
  let fromBuf ← bread rootdev (m.log.block.getD tail 0)
  let m ← get
  setBuf toBuf fun b => { b with data := (m.buf fromBuf).data }
  bwrite toBuf
  brelse fromBuf
  brelse toBuf

def writeLog : Fs PUnit := do
  let m ← get
  (List.range m.log.block.length).forM writeLogOne

def commit : Fs PUnit := do
  let m ← get
  if 0 < m.log.block.length then
    writeLog
    writeHead
    installTrans
    setLog fun log => { log with block := [] }
    writeHead
  else pure ()

def recoverFromLog : Fs PUnit := do
  readHead
  installTrans
  setLog fun log => { log with block := [] }
  writeHead

/-- `readsb`: the fields `nlog` and `logstart` of the superblock. -/
def readsb : Fs (ℤ × ℕ) := do
  let bp ← bread rootdev 1
  let m ← get
  brelse bp
  return ((wordAt (m.buf bp).data 3).toInt, (wordAt (m.buf bp).data 4).toNat)

def initlog : Fs PUnit := do
  let (nlog, logstart) ← readsb
  setLog fun log => { log with start := logstart, size := nlog }
  recoverFromLog

def beginOp : Fs PUnit := do
  check (fun m => (m.log.block.length : ℤ) +
    (m.log.outstanding + 1) * maxOpBlocks ≤ logSize) .blocked
  setLog fun log => { log with outstanding := log.outstanding + 1 }

def endOp : Fs PUnit := do
  setLog fun log => { log with outstanding := log.outstanding - 1 }
  let m ← get
  if m.log.outstanding = 0 then commit else pure ()

def logWrite (i : Fin nbuf) : Fs PUnit := do
  check (fun m => ¬ ((logSize : ℤ) ≤ m.log.block.length ∨
    m.log.size - 1 ≤ m.log.block.length)) (.panic "too big a transaction")
  check (fun m => ¬ m.log.outstanding < 1) (.panic "log_write outside of trans")
  let m ← get
  setLog fun log => { log with block := absorb log.block (m.buf i).blockno }
  setBuf i fun b => { b with dirty := true }

inductive FsEvent
  | beginOp
  | hold (blockno : ℕ)
  | update (blockno : ℕ) (f : Block → Block)
  | drop (blockno : ℕ)
  | endOp

def Machine.heldBuf (m : Machine) (blockno : ℕ) : Option (Fin nbuf) :=
  m.lru.find? fun i =>
    (m.buf i).dev = rootdev ∧ (m.buf i).blockno = blockno ∧ (m.buf i).valid ∧
      (m.buf i).locked

def runEvent : FsEvent → Fs PUnit
  | .beginOp => beginOp
  | .hold blockno => do
      let _ ← bread rootdev blockno
  | .update blockno f => do
      let m ← get
      match m.heldBuf blockno with
      | some i =>
          setBuf i fun b => { b with data := f b.data }
          logWrite i
      | none => throw .blocked
  | .drop blockno => do
      let m ← get
      match m.heldBuf blockno with
      | some i => brelse i
      | none => throw .blocked
  | .endOp => endOp

def session (events : List FsEvent) : Fs PUnit := do
  initlog
  events.forM runEvent

end Xv6Kernel
