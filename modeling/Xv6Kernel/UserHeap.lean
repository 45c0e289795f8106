import Xv6Kernel.Constants
import Xv6Kernel.LinkedCycle
import Xv6Kernel.TraceExecution

/-!
# The allocator of user programs

`malloc` and `free` of `umalloc.c` over the memory of a process.  Memory is given by the
headers that can be read from it: `header a` is what the eight bytes at `a` are as a
`Header`.  Addresses and the sizes of blocks below the break do not wrap, for `sbrk` does not
go beyond `KERNBASE`; the argument of `sbrk` may.

A program calls `malloc` and `free`, writes to the blocks that it has, and may move the
break itself; `free` gets only what `malloc` has returned.  An `sbrk` may fail at any
time; `grow` says for each value of the break whether it succeeds.  The fields `live`
and `obtained` are a history that no code reads: the blocks in use with the sizes that
were asked for, and the units obtained from `sbrk`.
-/

namespace Xv6Kernel

open TraceExecution LinkedCycle

structure Header where
  ptr : ℕ
  size : ℕ
  deriving DecidableEq

/-- `size` units of eight bytes from `addr`, the first of which is the header. -/
structure HeapBlock where
  addr : ℕ
  size : ℕ
  deriving DecidableEq

def HeapBlock.stop (b : HeapBlock) : ℕ := b.addr + 8 * b.size

structure LiveBlock extends HeapBlock where
  nbytes : ℕ
  deriving DecidableEq

structure UserMem where
  header : ℕ → Header
  freep : ℕ
  brk : ℕ

structure UserHeap extends UserMem where
  live : List LiveBlock
  obtained : ℕ

/-- A list in memory has fewer elements than there are addresses. -/
abbrev heapFuel : ℕ := 2 ^ 33

namespace UserMem

def setPtr (m : UserMem) (a ptr : ℕ) : UserMem :=
  { m with header := Function.update m.header a { m.header a with ptr := ptr } }

def setSize (m : UserMem) (a size : ℕ) : UserMem :=
  { m with header := Function.update m.header a { m.header a with size := size } }

def next (m : UserMem) (a : ℕ) : ℕ := (m.header a).ptr

def size (m : UserMem) (a : ℕ) : ℕ := (m.header a).size

/-- The two conditions under which the loop of `free` is left at `p`. -/
def between (m : UserMem) (bp p : ℕ) : Bool :=
  (decide (bp > p) && decide (bp < m.next p)) ||
    (decide (p ≥ m.next p) && (decide (bp > p) || decide (bp < m.next p)))

/-- `free` behind its loop: join `bp` with the block that follows it, if they touch. -/
def joinUpper (m : UserMem) (bp p : ℕ) : UserMem :=
  if bp + 8 * m.size bp = m.next p then
    (m.setSize bp (m.size bp + m.size (m.next p))).setPtr bp (m.next (m.next p))
  else m.setPtr bp (m.next p)

def joinLower (m : UserMem) (bp p : ℕ) : UserMem :=
  if p + 8 * m.size p = bp then (m.setSize p (m.size p + m.size bp)).setPtr p (m.next bp)
  else m.setPtr p bp

def free (m : UserMem) (ap : ℕ) : Outcome UserMem := do
  let bp := ap - 8
  let p ← awaitSome (LinkedCycle.walk m.next (m.between bp) heapFuel m.freep)
  return { (m.joinUpper bp p).joinLower bp p with freep := p }

/-- `sz` behind `growproc(n)`, where the word `n` is taken as an `int`; 0 is an error. -/
def growproc (grow : ℕ → Bool) (brk n : ℕ) : ℕ :=
  let sz := (brk + n) % 2 ^ 32
  if n = 0 then brk
  else if n < 2 ^ 31 then
    if sz ≥ kernbase then 0 else if sz < brk then brk else if grow brk then sz else 0
  else if sz ≥ brk then brk else sz

def morecore (grow : ℕ → Bool) (m : UserMem) (nu : ℕ) : Outcome (UserMem × ℕ) := do
  let nu := if nu < 4096 then 4096 else nu
  let brk := growproc grow m.brk (nu * 8 % 2 ^ 32)
  if brk ≠ 0 then do
    let hp := m.brk
    let m ← ({ m with brk := brk }.setSize hp nu).free (hp + 8)
    return (m, m.freep)
  else return (m, 0)

def carve (m : UserMem) (nunits prevp p : ℕ) : UserMem × ℕ :=
  if m.size p = nunits then ({ m.setPtr prevp (m.next p) with freep := prevp }, p + 8)
  else
    let m := m.setSize p (m.size p - nunits)
    let p := p + 8 * m.size p
    ({ m.setSize p nunits with freep := prevp }, p + 8)

def mallocLoop (grow : ℕ → Bool) (nunits : ℕ) : ℕ → UserMem → ℕ → ℕ → Outcome (UserMem × ℕ)
  | 0, _, _, _ => blocked
  | fuel + 1, m, prevp, p =>
      if m.size p ≥ nunits then return m.carve nunits prevp p
      else if p = m.freep then do
        let (m, p) ← morecore grow m nunits
        if p = 0 then return (m, 0)
        else mallocLoop grow nunits fuel m p (m.next p)
      else mallocLoop grow nunits fuel m p (m.next p)

def nunits (nbytes : ℕ) : ℕ := (nbytes + 8 - 1) % 2 ^ 32 / 8 + 1

/-- `base` is the address of the variable. -/
def malloc (base : ℕ) (grow : ℕ → Bool) (m : UserMem) (nbytes : ℕ) : Outcome (UserMem × ℕ) :=
  let m :=
    if m.freep = 0 then { (m.setPtr base base).setSize base 0 with freep := base } else m
  mallocLoop grow (nunits nbytes) heapFuel m m.freep (m.next m.freep)

end UserMem

inductive HeapLabel
  | malloc (nbytes : ℕ) (grow : ℕ → Bool)
  | free (ap : ℕ)
  | write (b : LiveBlock) (bytes : ℕ → Header)
  | sbrk (n : ℕ)

namespace UserHeap

def wanted (nbytes : ℕ) : ℕ := (nbytes + 7) / 8 + 1

def perform (base : ℕ) (s : UserHeap) : HeapLabel → Outcome UserHeap
  | .malloc nbytes grow => do
      await (8 * wanted nbytes < 2 ^ 31)
      let (m, ap) ← s.toUserMem.malloc base grow nbytes
      return {
        toUserMem := m
        live := if ap = 0 then s.live
          else ⟨⟨ap - 8, UserMem.nunits nbytes⟩, nbytes⟩ :: s.live
        obtained := s.obtained + (m.brk - s.brk) / 8 }
  | .free ap => do
      let b ← awaitSome (s.live.find? fun b => b.addr + 8 = ap)
      let m ← s.toUserMem.free ap
      return { s with toUserMem := m, live := s.live.erase b }
  | .write b bytes => do
      await (b ∈ s.live)
      -- a header can be read differently if it overlaps what is behind that of the block
      return { s with header := fun a =>
        if a + 8 ≤ b.addr + 8 ∨ b.stop ≤ a then s.header a else bytes a }
  | .sbrk n => do
      await (s.brk + n < kernbase)
      return { s with brk := s.brk + n }

def step (base : ℕ) : UserHeap → HeapLabel → Option UserHeap := stepOf (perform base)

/-- Before the first call; `base` lies below the break. -/
structure Initial (base : ℕ) (s : UserHeap) : Prop where
  freep : s.freep = 0
  base_pos : 0 < base
  base_below : base + 8 ≤ s.brk
  brk : s.brk < kernbase
  live : s.live = []
  obtained : s.obtained = 0

end UserHeap

end Xv6Kernel
