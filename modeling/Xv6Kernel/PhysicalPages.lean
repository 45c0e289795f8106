import Xv6Kernel.Constants
import Xv6Kernel.LinkedQueue
import Xv6Kernel.StateHoare
import Xv6Kernel.TraceExecution

/-!
# The page allocator and address spaces

`kalloc.c` and `vm.c` over physical memory.  Pages are given by their numbers (the
physical address without the last twelve bits) and hold 1024 words; a virtual page number
is a virtual address without the last twelve bits.  Page directories, page tables and the
links of the free list are read from and written to these words.

`kalloc` may find no page at any call, for others take pages as well; `refuse` says at
which calls it does.
-/

namespace Xv6Kernel.Vm

open TraceExecution StateHoare

/-- The page numbers that the linker decides: those of `data` and of the first page behind
`end`.  The kernel's text begins at one megabyte, and the first page table maps four. -/
structure KernelImage where
  data : ℕ
  stop : ℕ
  data_gt : 256 < data
  data_le : data ≤ stop
  stop_lt : stop < 1024

/-- The pages below `PHYSTOP`. -/
abbrev phystop : ℕ := 57344

def npdentries : ℕ := 1024

/-- The first virtual page of the kernel, and that of the devices. -/
abbrev kernpage : ℕ := 524288

abbrev devspace : ℕ := 1040384

structure PhysMem where
  word : ℕ → ℕ → ℕ
  freelist : Option ℕ
  asked : ℕ
  refuse : ℕ → Bool

abbrev Mem := EStateM Stop PhysMem

namespace PhysMem

def next (m : PhysMem) (r : ℕ) : Option ℕ :=
  if m.word r 0 = 0 then none else some ((m.word r 0 - kernbase) / 4096)

def fill (m : PhysMem) (p : ℕ) (content : ℕ → ℕ) : PhysMem :=
  { m with word := Function.update m.word p content }

def setWord (m : PhysMem) (p i w : ℕ) : PhysMem :=
  m.fill p (Function.update (m.word p) i w)

def push (m : PhysMem) (p : ℕ) : PhysMem :=
  let link := match m.freelist with
    | none => 0
    | some r => kernbase + 4096 * r
  { (m.fill p fun _ => 0x01010101).setWord p 0 link with freelist := some p }

end PhysMem

/-! ## `kalloc.c` -/

def kalloc : Mem (Option ℕ) := do
  let m ← get
  modify fun m => { m with asked := m.asked + 1 }
  if m.refuse m.asked then return none
  else
    match m.freelist with
    | none => return none
    | some r => do
        modify fun m => { m with freelist := m.next r }
        return some r

def kfree (k : KernelImage) (p : ℕ) : Mem Unit :=
  if p < k.stop ∨ phystop ≤ p then throw (.panic "kfree")
  else modify (·.push p)

def freerange (k : KernelImage) (first n : ℕ) : Mem Unit :=
  (List.range n).forM fun i => kfree k (first + i)

def pteP (w : ℕ) : Bool := w % 2 = 1

def pteU (w : ℕ) : Bool := w / 4 % 2 = 1

def pteAddr (w : ℕ) : ℕ := w / 4096

def pteFlags (w : ℕ) : ℕ := w % 4096

/-- `pa | perm | PTE_P` -/
def entry (p perm : ℕ) : ℕ := 4096 * p + (perm ||| 1)

abbrev permW : ℕ := 2

abbrev permWU : ℕ := 6

/-! ## `vm.c` -/

def walkpgdir (d v : ℕ) (alloc : Bool) : Mem (Option (ℕ × ℕ)) := do
  let pde := (← get).word d (v / 1024)
  if pteP pde then return some (pteAddr pde, v % 1024)
  else if alloc then do
    let mem ← kalloc
    match mem with
    | none => return none
    | some pgtab => do
        modify (·.fill pgtab fun _ => 0)
        modify (·.setWord d (v / 1024) (entry pgtab permWU))
        return some (pgtab, v % 1024)
  else return none

/-- The `n` virtual pages from `v` are mapped to the physical pages from `p`. -/
def mappages (d perm : ℕ) : ℕ → ℕ → ℕ → Mem Bool
  | 0, _, _ => return true
  | n + 1, v, p => do
      let pte ← walkpgdir d v true
      match pte with
      | none => return false
      | some (t, j) => do
          if pteP ((← get).word t j) then throw (.panic "remap")
          else do
            modify (·.setWord t j (entry p perm))
            mappages d perm n (v + 1) (p + 1)

def pgroundup (size : ℕ) : ℕ := (size + 4095) / 4096

def deallocLoop (k : KernelImage) (d last a : ℕ) : Mem Unit := do
  if a < last then do
    let pte ← walkpgdir d a false
    match pte with
    | none => deallocLoop k d last ((a / 1024 + 1) * 1024)
    | some (t, j) => do
        let w := (← get).word t j
        if pteP w then do
          if pteAddr w = 0 then throw (.panic "kfree")
          else do
            kfree k (pteAddr w)
            modify (·.setWord t j 0)
            deallocLoop k d last (a + 1)
        else deallocLoop k d last (a + 1)
  else return ()
termination_by last - a

def deallocuvm (k : KernelImage) (d oldsz newsz : ℕ) : Mem ℕ :=
  if newsz ≥ oldsz then return oldsz
  else do
    deallocLoop k d (pgroundup oldsz) (pgroundup newsz)
    return newsz

def freeTable (k : KernelImage) (d i : ℕ) : Mem Unit := do
  let w := (← get).word d i
  if pteP w then kfree k (pteAddr w)

def freeTables (k : KernelImage) (d n : ℕ) : Mem Unit :=
  (List.range n).forM (freeTable k d)

def freevm (k : KernelImage) (d : ℕ) : Mem Unit := do
  let _ ← deallocuvm k d kernbase 0
  freeTables k d npdentries
  kfree k d

/-- `kmap`: virtual page, physical page, number of pages, permissions. -/
def kmap (k : KernelImage) : List (ℕ × ℕ × ℕ × ℕ) :=
  [(kernpage, 0, 256, permW),
   (kernpage + 256, 256, k.data - 256, 0),
   (kernpage + k.data, k.data, phystop - k.data, permW),
   (devspace, devspace, 1048576 - devspace, permW)]

def mapKernel (d : ℕ) : List (ℕ × ℕ × ℕ × ℕ) → Mem Bool
  | [] => return true
  | (v, p, n, perm) :: rest => do
      if ← mappages d perm n v p then mapKernel d rest
      else return false

def setupkvm (k : KernelImage) : Mem (Option ℕ) := do
  let mem ← kalloc
  match mem with
  | none => return none
  | some d => do
      modify (·.fill d fun _ => 0)
      if ← mapKernel d (kmap k) then return some d
      else do
        freevm k d
        return none

def allocLoop (k : KernelImage) (d oldsz newsz : ℕ) : ℕ → ℕ → Mem ℕ
  | 0, _ => return newsz
  | n + 1, a => do
      let mem ← kalloc
      match mem with
      | none => do
          let _ ← deallocuvm k d newsz oldsz
          return 0
      | some p => do
          modify (·.fill p fun _ => 0)
          if ← mappages d permWU 1 a p then allocLoop k d oldsz newsz n (a + 1)
          else do
            let _ ← deallocuvm k d newsz oldsz
            kfree k p
            return 0

def allocuvm (k : KernelImage) (d oldsz newsz : ℕ) : Mem ℕ :=
  if newsz ≥ kernbase then return 0
  else if newsz < oldsz then return oldsz
  else allocLoop k d oldsz newsz (pgroundup newsz - pgroundup oldsz) (pgroundup oldsz)

def copyLoop (c d : ℕ) : ℕ → ℕ → Mem Bool
  | 0, _ => return true
  | n + 1, i => do
      let pte ← walkpgdir c i false
      match pte with
      | none => throw (.panic "copyuvm: pte should exist")
      | some (t, j) => do
          let w := (← get).word t j
          if pteP w then do
            let mem ← kalloc
            match mem with
            | none => return false
            | some p => do
                modify fun m => m.fill p (m.word (pteAddr w))
                if ← mappages d (pteFlags w) 1 i p then copyLoop c d n (i + 1)
                else return false
          else throw (.panic "copyuvm: page not present")

def copyuvm (k : KernelImage) (c sz : ℕ) : Mem (Option ℕ) := do
  let dir ← setupkvm k
  match dir with
  | none => return none
  | some d => do
      if ← copyLoop c d (pgroundup sz) 0 then return some d
      else do
        freevm k d
        return none

end Xv6Kernel.Vm
