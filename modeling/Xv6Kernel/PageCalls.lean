import Xv6Kernel.ProcTable
import Xv6Kernel.PhysicalPages

/-!
# The calls that take pages for a process

`fork` and `growproc`, with what they do to the pages of the kernel; calls are run one at a
time.
-/

namespace Xv6Kernel.Vm

open TraceExecution StateHoare

inductive SlotState
  | unused
  | embryo
  | active
  | zombie
  deriving DecidableEq

structure Slot where
  state : SlotState
  kstack : ℕ
  pgdir : ℕ
  sz : ℕ

structure Sys where
  mem : PhysMem
  proc : Fin 64 → Slot

abbrev Call := EStateM Stop Sys

def onMem {α : Type} (x : Mem α) : Call α := fun s =>
  match x s.mem with
  | .ok a m => .ok a { s with mem := m }
  | .error e m => .error e { s with mem := m }

def Sys.setProc (s : Sys) (p : Fin 64) (slot : Slot) : Sys :=
  { s with proc := Function.update s.proc p slot }

/-! ## `proc.c` -/

def allocproc : Call (Option (Fin 64)) := do
  let s ← get
  match (List.finRange 64).find? fun p => (s.proc p).state = .unused with
  | none => return none
  | some p => do
      modify (·.setProc p { s.proc p with state := .embryo })
      let mem ← onMem kalloc
      match mem with
      | none => do
          modify (·.setProc p { s.proc p with kstack := 0, state := .unused })
          return none
      | some q => do
          modify (·.setProc p { s.proc p with kstack := q, state := .embryo })
          return some p

def growproc (k : KernelImage) (cur : Fin 64) (n : ℤ) : Call ℤ := do
  let slot := (← get).proc cur
  let newsz := ((slot.sz + n) % 2 ^ 32).toNat
  if 0 < n then do
    let sz ← onMem (allocuvm k slot.pgdir slot.sz newsz)
    if sz = 0 then return -1
    else do
      modify (·.setProc cur { slot with sz := sz })
      return 0
  else if n < 0 then do
    let sz ← onMem (deallocuvm k slot.pgdir slot.sz newsz)
    if sz = 0 then return -1
    else do
      modify (·.setProc cur { slot with sz := sz })
      return 0
  else return 0

def fork (k : KernelImage) (cur : Fin 64) : Call (Option (Fin 64)) := do
  let curproc := (← get).proc cur
  let slot ← allocproc
  match slot with
  | none => return none
  | some np => do
      let kstack := ((← get).proc np).kstack
      let dir ← onMem (copyuvm k curproc.pgdir curproc.sz)
      match dir with
      | none => do
          onMem (kfree k kstack)
          modify fun s => s.setProc np { s.proc np with kstack := 0, pgdir := 0, state := .unused }
          return none
      | some d => do
          modify fun s => s.setProc np
            { s.proc np with pgdir := d, sz := curproc.sz, state := .active }
          return some np

end Xv6Kernel.Vm
