import Xv6Kernel.PhysicalPages

/-!
# The image of a program

What `exec` does with the memory of the new program: it reads the headers and the segments of
an ELF file, makes the stack, and copies the argument strings and the words of the calling frame
to it with `copyout`.  A file is the list of its bytes.

`walkpgdir` may find no table for a page.  `uva2ka` reads through the pointer it returns all the
same; `null` is that read.
-/

namespace Xv6Kernel.Vm

open TraceExecution StateHoare

/-- Bytes from `off` on are replaced in a page of words. -/
def overwrite (page : ℕ → ℕ) (off n : ℕ) (byte : ℕ → ℕ) (i : ℕ) : ℕ :=
  let part := fun b =>
    if off ≤ 4 * i + b ∧ 4 * i + b < off + n then byte (4 * i + b - off)
    else page i / 256 ^ b % 256
  part 0 + 256 * part 1 + 256 ^ 2 * part 2 + 256 ^ 3 * part 3

def bytesOf (bytes : List UInt8) (i : ℕ) : ℕ := (bytes.getD i 0).toNat

/-- Sums and differences of `uint`s. -/
@[irreducible] def uadd (a b : ℕ) : ℕ := (a + b) % 2 ^ 32

@[irreducible] def usub (a b : ℕ) : ℕ := (a + 2 ^ 32 - b) % 2 ^ 32

def readi (file : List UInt8) (off n : ℕ) : Option (List UInt8) :=
  if file.length < off ∨ 2 ^ 32 ≤ off + n then none else some ((file.drop off).take n)

/-- `readi`, when nothing but `n` bytes will do. -/
def readAll (file : List UInt8) (off n : ℕ) : Option (List UInt8) :=
  (readi file off n).filter fun bytes => bytes.length = n

def ushortAt (bytes : List UInt8) (i : ℕ) : ℕ := bytesOf bytes i + 256 * bytesOf bytes (i + 1)

def uintAt (bytes : List UInt8) (i : ℕ) : ℕ :=
  ushortAt bytes i + 65536 * ushortAt bytes (i + 2)

structure ElfHdr where
  magic : ℕ
  entry : ℕ
  phoff : ℕ
  phnum : ℕ

def elfhdr (bytes : List UInt8) : ElfHdr where
  magic := uintAt bytes 0
  entry := uintAt bytes 24
  phoff := uintAt bytes 28
  phnum := ushortAt bytes 44

structure ProgHdr where
  type : ℕ
  off : ℕ
  vaddr : ℕ
  filesz : ℕ
  memsz : ℕ

def proghdr (bytes : List UInt8) : ProgHdr where
  type := uintAt bytes 0
  off := uintAt bytes 4
  vaddr := uintAt bytes 8
  filesz := uintAt bytes 16
  memsz := uintAt bytes 20

def elfMagic : ℕ := 0x464C457F

def elfProgLoad : ℕ := 1

/-! ## `vm.c` -/

def loadLoop (d v : ℕ) (file : List UInt8) (offset sz : ℕ) : ℕ → ℕ → Mem Bool
  | 0, _ => return true
  | n + 1, i => do
      let pte ← walkpgdir d (v + i) false
      match pte with
      | none => throw (.panic "loaduvm: address should exist")
      | some (t, j) => do
          let p := pteAddr ((← get).word t j)
          let size := min (sz - 4096 * i) 4096
          match readi file (uadd offset (4096 * i)) size with
          | none => return false
          | some bytes => do
              modify fun m => m.fill p (overwrite (m.word p) 0 bytes.length (bytesOf bytes))
              if bytes.length = size then loadLoop d v file offset sz n (i + 1)
              else return false

def loaduvm (d addr : ℕ) (file : List UInt8) (offset sz : ℕ) : Mem Bool :=
  if addr % 4096 ≠ 0 then throw (.panic "loaduvm: addr must be page aligned")
  else loadLoop d (addr / 4096) file offset sz (pgroundup sz) 0

def clearpteu (d v : ℕ) : Mem Unit := do
  let pte ← walkpgdir d v false
  match pte with
  | none => throw (.panic "clearpteu")
  | some (t, j) =>
      modify fun m => m.setWord t j (if pteU (m.word t j) then m.word t j - 4 else m.word t j)

/-- The word at the address zero of the address space `c` that the processor uses. -/
def wordAtNull (c : ℕ) : Mem ℕ := do
  let pte ← walkpgdir c 0 false
  match pte with
  | none => throw (.panic "trap")
  | some (t, j) => do
      let w := (← get).word t j
      if pteP w then return (← get).word (pteAddr w) 0
      else throw (.panic "trap")

def readPte (null : Mem ℕ) : Option (ℕ × ℕ) → Mem ℕ
  | none => null
  | some (t, j) => do
      return (← get).word t j

def uva2ka (null : Mem ℕ) (d v : ℕ) : Mem (Option ℕ) := do
  let pte ← walkpgdir d v false
  let w ← readPte null pte
  if pteP w && pteU w then return some (pteAddr w) else return none

/-- What is not memory cannot be written. -/
def memmove (p off n : ℕ) (byte : ℕ → ℕ) : Mem Unit :=
  if p < phystop then modify fun m => m.fill p (overwrite (m.word p) off n byte)
  else throw (.panic "trap")

/-- `byte` are the bytes that are copied. -/
def copyout (null : Mem ℕ) (d va len : ℕ) (byte : ℕ → ℕ) : Mem Bool := do
  if 0 < len then do
    let pa ← uva2ka null d (va / 4096)
    match pa with
    | none => return false
    | some p => do
        let n := min (4096 - va % 4096) len
        memmove p (va % 4096) n byte
        copyout null d (uadd (va / 4096 * 4096) 4096) (len - n) fun i => byte (i + n)
  else return true
termination_by len

/-! ## `exec.c` -/

def loadSegments (k : KernelImage) (d : ℕ) (file : List UInt8) : ℕ → ℕ → ℕ → Mem (Option ℕ)
  | 0, _, sz => return some sz
  | n + 1, off, sz =>
      match readAll file off 32 with
      | none => return none
      | some bytes =>
          let ph := proghdr bytes
          if ph.type ≠ elfProgLoad then loadSegments k d file n (uadd off 32) sz
          else if ph.memsz < ph.filesz then return none
          else if uadd ph.vaddr ph.memsz < ph.vaddr then return none
          else do
            let sz ← allocuvm k d sz (uadd ph.vaddr ph.memsz)
            if sz = 0 then return none
            else if ph.vaddr % 4096 ≠ 0 then return none
            else do
              if ← loaduvm d ph.vaddr file ph.off ph.filesz then
                loadSegments k d file n (uadd off 32) sz
              else return none

/-- Two pages at the next page boundary, the first of them inaccessible. -/
def stackPages (k : KernelImage) (d sz : ℕ) : Mem (Option ℕ) := do
  let top := uadd sz 4095 / 4096 * 4096
  let sz ← allocuvm k d top (uadd top (2 * 4096))
  if sz = 0 then return none
  else do
    clearpteu d ((sz - 2 * 4096) / 4096)
    return some sz

def maxarg : ℕ := 32

/-- A string in the memory of a process, which ends below `KERNBASE`. -/
structure CString where
  bytes : List UInt8
  noNull : 0 ∉ bytes
  ends : bytes.length < kernbase

def CString.below (arg : CString) (sp : ℕ) : ℕ := usub sp (arg.bytes.length + 1) / 4 * 4

def pushArgs (null : Mem ℕ) (d : ℕ) : List CString → List ℕ → ℕ → Mem (Option (List ℕ × ℕ))
  | [], args, sp => return some (args, sp)
  | arg :: rest, args, sp =>
      if args.length ≥ maxarg then return none
      else do
        if ← copyout null d (arg.below sp) (arg.bytes.length + 1) (bytesOf arg.bytes) then
          pushArgs null d rest (args ++ [arg.below sp]) (arg.below sp)
        else return none

/-- The words above the stack pointer: return address, `argc`, `argv`, and the vector. -/
def ustack (args : List ℕ) (sp : ℕ) : List ℕ :=
  [0xffffffff, args.length, usub sp ((args.length + 1) * 4)] ++ args ++ [0]

def wordBytes (words : List ℕ) (i : ℕ) : ℕ := words.getD (i / 4) 0 / 256 ^ (i % 4) % 256

def pushFrame (null : Mem ℕ) (d : ℕ) (argv : List CString) (sz : ℕ) : Mem (Option ℕ) := do
  let pushed ← pushArgs null d argv [] sz
  match pushed with
  | none => return none
  | some (args, sp) => do
      let size := (3 + args.length + 1) * 4
      let esp := usub sp size
      if ← copyout null d esp size (wordBytes (ustack args sp)) then return some esp
      else return none

end Xv6Kernel.Vm
