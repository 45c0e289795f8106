import Xv6Kernel.RingBuffer
import Xv6Kernel.TraceExecution
import Xv6Kernel.WordBytes

/-!
# The console

The line discipline of `console.c`: `consoleintr`, called by the interrupts of the
keyboard and of the serial port, and `consoleread`, called by one process.  Both
work on `input` with `cons.lock` held, so a step is what is done between acquiring
the lock and giving it up, and the states are those in which the lock is free.
`sleep` gives up the lock when no wakeup can come between.

What is shown on the screen is left out.  The fields `committed` and `reads` are a
history that no code reads: the characters handed over to the reader by an
assignment to `input.w`, and the calls of `consoleread` that have returned.
-/

namespace Xv6Kernel

open TraceExecution RingBuffer WordBytes

abbrev inputBuf : ℕ := 128

def ctl (x : Char) : Byte := BitVec.ofNat 8 (x.toNat - '@'.toNat)

def newline : Byte := BitVec.ofNat 8 '\n'.toNat

def carriageReturn : Byte := BitVec.ofNat 8 '\r'.toNat

/-- `input`. -/
structure ConsoleInput where
  buf : Fin inputBuf → Byte
  r : BitVec 32
  w : BitVec 32
  e : BitVec 32

/-- A call of `consoleread`: its count, what is left of it, and what it has stored. -/
structure ConsoleRead where
  target : ℕ
  n : ℕ
  dst : List Byte
  deriving DecidableEq

inductive ReaderPc
  | outside
  | asleep (read : ConsoleRead)
  | woken (read : ConsoleRead)
  deriving DecidableEq

structure ReadReturn where
  target : ℕ
  result : ℤ
  dst : List Byte
  deriving DecidableEq

structure Console where
  input : ConsoleInput
  killed : Bool
  reader : ReaderPc
  committed : List Byte
  reads : List ReadReturn

inductive ConsoleLabel
  | consoleintr (chars : List Byte)
  | consoleread (n : ℕ)
  | resume
  deriving DecidableEq

namespace ConsoleInput

def ring (input : ConsoleInput) : Ring Byte 32 inputBuf := ⟨input.buf, input.r, input.e⟩

@[simp] theorem ring_nread (input : ConsoleInput) : input.ring.nread = input.r := rfl

@[simp] theorem ring_nwrite (input : ConsoleInput) : input.ring.nwrite = input.e := rfl

def line (input : ConsoleInput) : List Byte :=
  (List.range (input.e - input.w).toNat).map fun i =>
    input.buf (cell inputBuf (input.w + BitVec.ofNat 32 i).toNat)

/-- The loop for `C('U')`; it goes round at most `e - w` times. -/
def killLine : ℕ → ConsoleInput → ConsoleInput
  | 0, input => input
  | fuel + 1, input =>
      if input.e ≠ input.w ∧ input.buf (cell inputBuf (input.e - 1).toNat) ≠ newline then
        killLine fuel { input with e := input.e - 1 }
      else input

def store (input : ConsoleInput) (c : Byte) : ConsoleInput :=
  { input with
    buf := Function.update input.buf (cell inputBuf input.e.toNat) c
    e := input.e + 1 }

end ConsoleInput

def ReaderPc.wakeup : ReaderPc → ReaderPc
  | .asleep read => .woken read
  | pc => pc

/-- How the loop of `consoleread` is left. -/
inductive ReadEnd
  | sleep (read : ConsoleRead)
  | killed (dst : List Byte)
  | done (n : ℕ) (dst : List Byte)

def readLoop (killed : Bool) (target : ℕ) :
    ℕ → ConsoleInput → List Byte → ConsoleInput × ReadEnd
  | 0, input, dst => (input, .done 0 dst)
  | n + 1, input, dst =>
      if input.r = input.w then
        if killed then (input, .killed dst)
        else (input, .sleep ⟨target, n + 1, dst⟩)
      else
        let c := input.buf (cell inputBuf input.r.toNat)
        let input := { input with r := input.r + 1 }
        if c = ctl 'D' then
          -- the character is saved for the next call
          if n + 1 < target then ({ input with r := input.r - 1 }, .done (n + 1) dst)
          else (input, .done (n + 1) dst)
        else
          if c = newline then (input, .done n (dst ++ [c]))
          else readLoop killed target n input (dst ++ [c])

namespace Console

def receive (s : Console) (c : Byte) : Console :=
  if c = ctl 'P' then s
  else if c = ctl 'U' then
    { s with input := s.input.killLine (s.input.e - s.input.w).toNat }
  else if c = ctl 'H' ∨ c = 0x7f then
    if s.input.e ≠ s.input.w then { s with input.e := s.input.e - 1 } else s
  else if c ≠ 0 ∧ s.input.e - s.input.r < BitVec.ofNat 32 inputBuf then
    let c := if c = carriageReturn then newline else c
    let input := s.input.store c
    if c = newline ∨ c = ctl 'D' ∨ input.e = input.r + BitVec.ofNat 32 inputBuf then
      { s with
        input := { input with w := input.e }
        reader := s.reader.wakeup
        committed := s.committed ++ input.line }
    else { s with input := input }
  else s

def consoleintr (s : Console) (chars : List Byte) : Console := chars.foldl receive s

def runRead (s : Console) (read : ConsoleRead) : Console :=
  match readLoop s.killed read.target read.n s.input read.dst with
  | (input, .sleep read) => { s with input := input, reader := .asleep read }
  | (input, .killed dst) =>
      { s with
        input := input
        reader := .outside
        reads := s.reads ++ [⟨read.target, -1, dst⟩] }
  | (input, .done n dst) =>
      { s with
        input := input
        reader := .outside
        reads := s.reads ++ [⟨read.target, read.target - n, dst⟩] }

def perform (s : Console) : ConsoleLabel → Outcome Console
  | .consoleintr chars => return s.consoleintr chars
  | .consoleread n => do
      await (s.reader = .outside)
      return s.runRead ⟨n, n, []⟩
  | .resume =>
      match s.reader with
      | .woken read => return s.runRead read
      | _ => blocked

def step : Console → ConsoleLabel → Option Console := stepOf perform

/-- Nothing typed, and a process that is not killed. -/
structure Initial (s : Console) : Prop where
  r : s.input.r = 0
  w : s.input.w = 0
  e : s.input.e = 0
  killed : s.killed = false
  reader : s.reader = .outside
  committed : s.committed = []
  reads : s.reads = []

end Console

end Xv6Kernel
