import Xv6Kernel.RedoLog
import Xv6Kernel.StateHoare
import Xv6Kernel.TraceExecution

/-!
# The buffer cache

`bio.c` over the memory disk of `memide.c`.  A pointer to a `struct buf` is an
index, and `lru` lists the buffers from `bcache.head.next` to
`bcache.head.prev`.  The state also has the in-memory part of the log, which
`log.c` keeps beside the cache, and the history of disk writes.

A process that waits for the lock of a buffer, like one that panics, stops the
run here; the state it leaves is part of the result.
-/

namespace Xv6Kernel

open TraceExecution StateHoare RedoLog Function

abbrev nbuf : ℕ := 30

instance : NeZero nbuf := ⟨by decide⟩

abbrev fssize : ℕ := 1000

abbrev rootdev : ℕ := 1

/-- The 512 bytes of a block as words. -/
abbrev Block := Fin 128 → BitVec 32

structure Buf where
  dev : ℕ
  blockno : ℕ
  valid : Bool
  dirty : Bool
  refcnt : ℕ
  locked : Bool
  data : Block

/-- `struct log` as far as one process uses it; `block` is `log.lh.block` up to
`log.lh.n`. -/
structure Log where
  start : ℕ
  size : ℤ
  outstanding : ℤ
  block : List ℕ

structure Machine where
  disk : ℕ → Block
  writes : List (ℕ × Block)
  buf : Fin nbuf → Buf
  lru : List (Fin nbuf)
  log : Log

abbrev Fs (α : Type) := EStateM Stop Machine α

def Machine.setBuf (m : Machine) (i : Fin nbuf) (b : Buf) : Machine :=
  { m with buf := Function.update m.buf i b }

def setBuf (i : Fin nbuf) (f : Buf → Buf) : Fs PUnit :=
  modify fun m => m.setBuf i (f (m.buf i))

def check (condition : Machine → Bool) (stop : Stop) : Fs PUnit := do
  let m ← get
  if condition m then pure () else throw stop

/-! ## `memide.c` and `bio.c` -/

def writeDisk (blockno : ℕ) (data : Block) : Fs PUnit :=
  modify fun m =>
    { m with
      disk := Function.update m.disk blockno data
      writes := m.writes ++ [(blockno, data)] }

def iderw (i : Fin nbuf) : Fs PUnit := do
  check (fun m => (m.buf i).locked) (.panic "iderw: buf not locked")
  check (fun m => ¬ ((m.buf i).valid ∧ ¬ (m.buf i).dirty))
    (.panic "iderw: nothing to do")
  check (fun m => (m.buf i).dev = 1) (.panic "iderw: request not for disk 1")
  check (fun m => (m.buf i).blockno < fssize)
    (.panic "iderw: block out of range")
  let m ← get
  if (m.buf i).dirty then
    setBuf i fun b => { b with dirty := false }
    writeDisk (m.buf i).blockno (m.buf i).data
  else setBuf i fun b => { b with data := m.disk b.blockno }
  setBuf i fun b => { b with valid := true }

def acquireBuf (i : Fin nbuf) : Fs PUnit := do
  check (fun m => ¬ (m.buf i).locked) .blocked
  setBuf i fun b => { b with locked := true }

def Machine.cached (m : Machine) (dev blockno : ℕ) : Option (Fin nbuf) :=
  m.lru.find? fun i => (m.buf i).dev = dev ∧ (m.buf i).blockno = blockno

def Machine.unusedBuf (m : Machine) : Option (Fin nbuf) :=
  m.lru.reverse.find? fun i => (m.buf i).refcnt = 0 ∧ (m.buf i).dirty = false

def bget (dev blockno : ℕ) : Fs (Fin nbuf) := do
  let m ← get
  match m.cached dev blockno with
  | some i =>
      setBuf i fun b => { b with refcnt := b.refcnt + 1 }
      acquireBuf i
      return i
  | none =>
      match m.unusedBuf with
      | some i =>
          setBuf i fun b =>
            { b with
              dev := dev
              blockno := blockno
              valid := false
              dirty := false
              refcnt := 1 }
          acquireBuf i
          return i
      | none => throw (.panic "bget: no buffers")

def bread (dev blockno : ℕ) : Fs (Fin nbuf) := do
  let i ← bget dev blockno
  let m ← get
  if (m.buf i).valid then pure () else iderw i
  return i

def bwrite (i : Fin nbuf) : Fs PUnit := do
  check (fun m => (m.buf i).locked) (.panic "bwrite")
  setBuf i fun b => { b with dirty := true }
  iderw i

def brelse (i : Fin nbuf) : Fs PUnit := do
  check (fun m => (m.buf i).locked) (.panic "brelse")
  setBuf i fun b => { b with locked := false, refcnt := b.refcnt - 1 }
  let m ← get
  if (m.buf i).refcnt = 0 then
    modify fun m => { m with lru := i :: m.lru.erase i }
  else pure ()

def boot (d : ℕ → Block) : Machine where
  disk := d
  writes := []
  buf := fun _ =>
    { dev := 0
      blockno := 0
      valid := false
      dirty := false
      refcnt := 0
      locked := false
      data := fun _ => 0 }
  lru := (List.finRange nbuf).reverse
  log := { start := 0, size := 0, outstanding := 0, block := [] }

/-- The cache stands for the block contents `contents`, and `dirty` are the
blocks whose contents the disk does not have yet. -/
structure Cached (m : Machine) (contents : ℕ → Block) (dirty : Set ℕ) :
    Prop where
  lru : ∀ i, i ∈ m.lru
  unique : ∀ i j, (m.buf i).dev = rootdev → (m.buf j).dev = rootdev →
    (m.buf i).blockno = (m.buf j).blockno → i = j
  data : ∀ i, (m.buf i).valid = true → (m.buf i).dev = rootdev ∧
    (m.buf i).blockno < fssize ∧ (m.buf i).data = contents (m.buf i).blockno
  valid : ∀ i, (m.buf i).dirty = true → (m.buf i).valid = true ∧
    (m.buf i).blockno ∈ dirty
  pinned : ∀ b ∈ dirty, ∃ i, (m.buf i).dev = rootdev ∧ (m.buf i).blockno = b ∧
    (m.buf i).dirty = true
  clean : ∀ b, b ∉ dirty → m.disk b = contents b
  refcnt : ∀ i, (m.buf i).locked = true → 0 < (m.buf i).refcnt

/-- The caller holds buffer `i` with block `b` in it. -/
structure Holds (m : Machine) (i : Fin nbuf) (b : ℕ) : Prop where
  dev : (m.buf i).dev = rootdev
  blockno : (m.buf i).blockno = b
  valid : (m.buf i).valid = true
  locked : (m.buf i).locked = true

structure SameDisk (m m' : Machine) : Prop where
  disk : m'.disk = m.disk
  writes : m'.writes = m.writes
  log : m'.log = m.log

theorem SameDisk.refl (m : Machine) : SameDisk m m := ⟨rfl, rfl, rfl⟩

theorem SameDisk.trans {m m' m'' : Machine} (hfirst : SameDisk m m')
    (hsecond : SameDisk m' m'') : SameDisk m m'' where
  disk := hsecond.disk.trans hfirst.disk
  writes := hsecond.writes.trans hfirst.writes
  log := hsecond.log.trans hfirst.log

section Machine

variable {m : Machine} {i j : Fin nbuf} {v : Buf} {E : Machine → Prop} {Q : PUnit → Machine → Prop}

@[simp] theorem setBuf_self : (m.setBuf i v).buf i = v := by
  simp [Machine.setBuf]

theorem setBuf_of_ne (hj : j ≠ i) : (m.setBuf i v).buf j = m.buf j := by
  simp [Machine.setBuf, hj]

@[simp] theorem setBuf_disk : (m.setBuf i v).disk = m.disk := rfl

@[simp] theorem setBuf_writes : (m.setBuf i v).writes = m.writes := rfl

@[simp] theorem setBuf_lru : (m.setBuf i v).lru = m.lru := rfl

@[simp] theorem setBuf_log : (m.setBuf i v).log = m.log := rfl

@[simp] theorem setBuf_setBuf {w : Buf} : (m.setBuf i v).setBuf i w = m.setBuf i w := by
  simp [Machine.setBuf]

theorem sameDisk_setBuf : SameDisk m (m.setBuf i v) := ⟨rfl, rfl, rfl⟩

@[simp] theorem ensures_setBuf {f : Buf → Buf}
    :
    Ensures (setBuf i f) m Q E ↔ Q () (m.setBuf i (f (m.buf i))) := Iff.rfl

@[simp] theorem ensures_writeDisk {b : ℕ} {data : Block}
    :
    Ensures (writeDisk b data) m Q E ↔
      Q () { m with
        disk := update m.disk b data
        writes := m.writes ++ [(b, data)] } := Iff.rfl

@[simp] theorem ensures_check {condition : Machine → Bool} {stop : Stop} :
    Ensures (check condition stop) m Q E ↔
      if condition m = true then Q () m else E m := by
  simp only [check, ensures_bind, ensures_get]
  split <;> simp

variable {contents : ℕ → Block} {dirty : Set ℕ} {b : ℕ}

theorem Cached.setBuf (hcached : Cached m contents dirty)
    (hunique : v.dev = rootdev → ∀ j, j ≠ i → (m.buf j).dev = rootdev →
      (m.buf j).blockno ≠ v.blockno)
    (hdata : v.valid = true → v.dev = rootdev ∧ v.blockno < fssize ∧
      v.data = contents v.blockno)
    (hvalid : v.dirty = true → v.valid = true ∧ v.blockno ∈ dirty)
    (hpinned : (m.buf i).dirty = true → v.dirty = true ∧
      v.dev = (m.buf i).dev ∧ v.blockno = (m.buf i).blockno)
    (hrefcnt : v.locked = true → 0 < v.refcnt) :
    Cached (m.setBuf i v) contents dirty := by
  constructor
  case lru => exact hcached.lru
  case unique =>
    intro j k hj hk hblockno
    by_cases hji : j = i
    · subst j
      by_cases hki : k = i
      · exact hki.symm
      · rw [setBuf_self] at hj hblockno
        rw [setBuf_of_ne hki] at hk hblockno
        exact (hunique hj k hki hk hblockno.symm).elim
    · rw [setBuf_of_ne hji] at hj hblockno
      by_cases hki : k = i
      · subst k
        rw [setBuf_self] at hk hblockno
        exact (hunique hk j hji hj hblockno).elim
      · rw [setBuf_of_ne hki] at hk hblockno
        exact hcached.unique j k hj hk hblockno
  case data =>
    intro j
    by_cases hji : j = i
    · subst j
      rw [setBuf_self]
      exact hdata
    · rw [setBuf_of_ne hji]
      exact hcached.data j
  case valid =>
    intro j
    by_cases hji : j = i
    · subst j
      rw [setBuf_self]
      exact hvalid
    · rw [setBuf_of_ne hji]
      exact hcached.valid j
  case pinned =>
    intro b hb
    obtain ⟨j, hdev, hblockno, hdirty⟩ := hcached.pinned b hb
    refine ⟨j, ?_⟩
    by_cases hji : j = i
    · subst j
      obtain ⟨hdirty', hdev', hblockno'⟩ := hpinned hdirty
      rw [setBuf_self, hdev', hblockno']
      exact ⟨hdev, hblockno, hdirty'⟩
    · rw [setBuf_of_ne hji]
      exact ⟨hdev, hblockno, hdirty⟩
  case clean => exact hcached.clean
  case refcnt =>
    intro j
    by_cases hji : j = i
    · subst j
      rw [setBuf_self]
      exact hrefcnt
    · rw [setBuf_of_ne hji]
      exact hcached.refcnt j

theorem Cached.setBuf_refs (hcached : Cached m contents dirty) {refcnt : ℕ}
    {locked : Bool} (hrefcnt : locked = true → 0 < refcnt) :
    Cached (m.setBuf i { m.buf i with refcnt := refcnt, locked := locked })
      contents dirty := by
  apply hcached.setBuf
  · intro hdev j hji hj hblockno
    exact hji (hcached.unique j i hj hdev hblockno)
  · exact hcached.data i
  · exact hcached.valid i
  · intro hdirty
    exact ⟨hdirty, rfl, rfl⟩
  · exact hrefcnt

/-! ## What the functions of `bio.c` do -/

def BreadFails (m : Machine) (b : ℕ) : Prop :=
  (∃ i, (m.buf i).dev = rootdev ∧ (m.buf i).blockno = b ∧
    (m.buf i).locked = true) ∨
  (∀ i, (m.buf i).refcnt ≠ 0 ∨ (m.buf i).dirty = true) ∨ fssize ≤ b

/-- The buffer that `bget` returns. -/
inductive BgetResult (m : Machine) (b : ℕ) (i : Fin nbuf) : Buf → Prop
  | hit (hdev : (m.buf i).dev = rootdev) (hblockno : (m.buf i).blockno = b)
      (hlocked : (m.buf i).locked = false) :
      BgetResult m b i
        { m.buf i with refcnt := (m.buf i).refcnt + 1, locked := true }
  | miss (hnone : ∀ j, (m.buf j).dev = rootdev → (m.buf j).blockno ≠ b)
      (hrefcnt : (m.buf i).refcnt = 0) (hdirty : (m.buf i).dirty = false)
      (hlocked : (m.buf i).locked = false) :
      BgetResult m b i
        { m.buf i with
          dev := rootdev
          blockno := b
          valid := false
          dirty := false
          refcnt := 1
          locked := true }

theorem ensures_bget (hcached : Cached m contents dirty) {Q : Fin nbuf → Machine → Prop}
    (hok : ∀ i v, BgetResult m b i v → Q i (m.setBuf i v))
    (hfail : ∀ m', SameDisk m m' → BreadFails m b → E m') : Ensures (bget rootdev b) m Q E := by
  simp only [bget, acquireBuf, ensures_bind, ensures_get]
  cases hfind : m.cached rootdev b with
  | some i =>
    have hi : (m.buf i).dev = rootdev ∧ (m.buf i).blockno = b := by
      simpa using List.find?_some hfind
    simp only [ensures_bind, ensures_setBuf, ensures_check, ensures_pure,
      setBuf_self, setBuf_setBuf]
    split
    next hlocked =>
      apply hok
      exact .hit hi.1 hi.2 (by simpa using hlocked)
    next hlocked =>
      apply hfail _ sameDisk_setBuf
      exact Or.inl ⟨i, hi.1, hi.2, by simpa using hlocked⟩
  | none =>
    have hnone : ∀ j, (m.buf j).dev = rootdev → (m.buf j).blockno ≠ b := by
      intro j hdev hblockno
      have hnot := List.find?_eq_none.mp hfind j (hcached.lru j)
      simp [hdev, hblockno] at hnot
    cases hunused : m.unusedBuf with
    | some i =>
      have hi : (m.buf i).refcnt = 0 ∧ (m.buf i).dirty = false := by
        simpa using List.find?_some hunused
      have hlocked : (m.buf i).locked = false := by
        by_contra hheld
        have hpos := hcached.refcnt i (by simpa using hheld)
        omega
      simp only [ensures_bind, ensures_setBuf, ensures_check, ensures_pure,
        setBuf_self, setBuf_setBuf, hlocked]
      exact hok i _ (.miss hnone hi.1 hi.2 hlocked)
    | none =>
      apply hfail _ (SameDisk.refl m)
      right
      left
      intro i
      have hnot := List.find?_eq_none.mp hunused i (List.mem_reverse.mpr (hcached.lru i))
      by_contra hfree
      simp only [not_or, not_not, Bool.not_eq_true] at hfree
      simp [hfree.1, hfree.2] at hnot

/-- What `bread` leaves behind when it returns buffer `i`. -/
structure Acquired (m m' : Machine) (contents : ℕ → Block) (dirty : Set ℕ)
    (i : Fin nbuf) (b : ℕ) : Prop where
  cached : Cached m' contents dirty
  holds : Holds m' i b
  same : SameDisk m m'
  lru : m'.lru = m.lru
  others : ∀ j, j ≠ i → m'.buf j = m.buf j
  free : (m.buf i).locked = false
  refcnt : (m'.buf i).refcnt = (m.buf i).refcnt + 1

theorem BgetResult.fields (hresult : BgetResult m b i v) :
    v.dev = rootdev ∧ v.blockno = b ∧ v.locked = true ∧
      v.refcnt = (m.buf i).refcnt + 1 ∧ (m.buf i).locked = false := by
  cases hresult with
  | hit hdev hblockno hlocked => exact ⟨hdev, hblockno, rfl, rfl, hlocked⟩
  | miss _ hrefcnt _ hlocked => simp [hrefcnt, hlocked]

theorem BgetResult.cached (hresult : BgetResult m b i v) (hcached : Cached m contents dirty) :
    Cached (m.setBuf i v) contents dirty := by
  cases hresult with
  | hit => exact hcached.setBuf_refs (by simp)
  | miss hnone _ hdirty _ =>
    apply hcached.setBuf
    · intro _ j _ hdev
      exact hnone j hdev
    · simp
    · simp
    · simp [hdirty]
    · simp

section

variable (hcached : Cached m contents dirty)

include hcached

section

variable (hdev : (m.buf i).dev = rootdev) (hvalid : (m.buf i).valid = false)

include hdev hvalid

theorem Cached.not_dirty_of_invalid : (m.buf i).blockno ∉ dirty := by
  intro hmem
  obtain ⟨j, hdevj, hblockno, hdirty⟩ := hcached.pinned _ hmem
  have hji := hcached.unique j i hdevj hdev hblockno
  subst hji
  have hvalid' := (hcached.valid j hdirty).1
  rw [hvalid] at hvalid'
  contradiction

theorem Cached.setBuf_read
    (hrange : (m.buf i).blockno < fssize) :
    Cached (m.setBuf i { m.buf i with
      data := m.disk (m.buf i).blockno
      valid := true }) contents dirty := by
  have hclean := hcached.not_dirty_of_invalid hdev hvalid
  have hdirty : (m.buf i).dirty = false := by
    by_contra hdirty
    exact hclean (hcached.valid i (by simpa using hdirty)).2
  apply hcached.setBuf
  · intro _ j hji hj hblockno
    exact hji (hcached.unique j i hj hdev hblockno)
  · intro _
    exact ⟨hdev, hrange, hcached.clean _ hclean⟩
  · simp [hdirty]
  · simp [hdirty]
  · exact hcached.refcnt i

theorem ensures_iderw_read
    (hlocked : (m.buf i).locked = true)
    (hok : (m.buf i).blockno < fssize →
      Q () (m.setBuf i { m.buf i with
        data := m.disk (m.buf i).blockno
        valid := true }))
    (hfail : fssize ≤ (m.buf i).blockno → E m) :
    Ensures (iderw i) m Q E := by
  have hdirty : (m.buf i).dirty = false := by
    by_contra hdirty
    have htrue := (hcached.valid i (by simpa using hdirty)).1
    rw [hvalid] at htrue
    contradiction
  by_cases hrange : (m.buf i).blockno < fssize
  · simpa [iderw, hlocked, hvalid, hdev, hrange, hdirty] using hok hrange
  · simpa [iderw, hlocked, hvalid, hdev, hrange] using hfail (by omega)

end

theorem ensures_bread {Q : Fin nbuf → Machine → Prop}
    (hok : ∀ i m', Acquired m m' contents dirty i b → Q i m')
    (hfail : ∀ m', SameDisk m m' → BreadFails m b → E m') : Ensures (bread rootdev b) m Q E := by
  rw [bread, ensures_bind]
  refine ensures_bget hcached ?_ hfail
  intro i v hresult
  obtain ⟨hdev, hblockno, hlocked, hrefcnt, hfree⟩ := hresult.fields
  have hcached' := hresult.cached hcached
  simp only [ensures_bind, ensures_get, setBuf_self]
  by_cases hvalid : v.valid = true
  · simp only [hvalid, if_true, ensures_pure]
    apply hok
    constructor
    · exact hcached'
    · constructor <;> simp [hdev, hblockno, hvalid, hlocked]
    · exact sameDisk_setBuf
    · rfl
    · intro j hj
      exact setBuf_of_ne hj
    · exact hfree
    · simp [hrefcnt]
  · rw [Bool.not_eq_true] at hvalid
    simp only [hvalid, Bool.false_eq_true, if_false]
    rw [ensures_bind]
    apply ensures_iderw_read (i := i) hcached' (by simp [hdev])
      (by simp [hvalid]) (by simp [hlocked])
    · intro hrange
      have hread := hcached'.setBuf_read (i := i) (by simp [hdev]) (by simp [hvalid]) hrange
      simp only [setBuf_self, setBuf_setBuf, setBuf_disk] at hread ⊢
      apply hok
      constructor
      · exact hread
      · constructor <;> simp [hdev, hblockno, hlocked]
      · exact sameDisk_setBuf
      · rfl
      · intro j hj
        exact setBuf_of_ne hj
      · exact hfree
      · simp [hrefcnt]
    · intro hrange
      rw [setBuf_self, hblockno] at hrange
      exact hfail _ sameDisk_setBuf (Or.inr (Or.inr hrange))

end

theorem Holds.of_buf_eq {m' : Machine} (hholds : Holds m i b)
    (hbuf : m'.buf i = m.buf i) : Holds m' i b := by
  constructor <;> rw [hbuf]
  · exact hholds.dev
  · exact hholds.blockno
  · exact hholds.valid
  · exact hholds.locked

/-- What a write of `data` to the disk through the held buffer `i` leaves. -/
structure Written (m m' : Machine) (contents : ℕ → Block) (dirty : Set ℕ)
    (i : Fin nbuf) (b : ℕ) (data : Block) : Prop where
  cached : Cached m' (Function.update contents b data) (dirty \ {b})
  holds : Holds m' i b
  disk : m'.disk = Function.update m.disk b data
  writes : m'.writes = m.writes ++ [(b, data)]
  log : m'.log = m.log
  lru : m'.lru = m.lru
  others : ∀ j, j ≠ i → m'.buf j = m.buf j
  refcnt : (m'.buf i).refcnt = (m.buf i).refcnt

def Machine.written (m : Machine) (i : Fin nbuf) (b : ℕ) (data : Block) : Machine :=
  { m.setBuf i { m.buf i with data := data, dirty := false, valid := true } with
    disk := Function.update m.disk b data
    writes := m.writes ++ [(b, data)] }

theorem written_buf_of_ne {data : Block} (hj : j ≠ i) :
    (m.written i b data).buf j = m.buf j := setBuf_of_ne hj

theorem written_buf_self {data : Block} :
    (m.written i b data).buf i =
      { m.buf i with data := data, dirty := false, valid := true } := setBuf_self

section

variable (hcached : Cached m contents dirty)

include hcached

theorem Cached.blockno_ne (hholds : Holds m i b) (hji : j ≠ i)
    (hdev : (m.buf j).dev = rootdev) : (m.buf j).blockno ≠ b := by
  intro hblockno
  rw [← hholds.blockno] at hblockno
  exact hji (hcached.unique j i hdev hholds.dev hblockno)

theorem Cached.refill {m' : Machine} {dirty' : Set ℕ} (hholds : Holds m i b) (data : Block)
    (flag : Bool) (hself : m'.buf i = { m.buf i with data := data, dirty := flag, valid := true })
    (hothers : ∀ j, j ≠ i → m'.buf j = m.buf j) (hlru : m'.lru = m.lru)
    (hdisk : ∀ x, x ≠ b → m'.disk x = m.disk x) (hdiskSelf : flag = false → m'.disk b = data)
    (hdirty : ∀ x, x ≠ b → (x ∈ dirty' ↔ x ∈ dirty)) (hdirtySelf : b ∈ dirty' ↔ flag = true) :
    Cached m' (update contents b data) dirty' := by
  have hrange := (hcached.data i hholds.valid).2.1
  constructor
  case lru =>
    rw [hlru]
    exact hcached.lru
  case unique =>
    have hplace : ∀ j, (m'.buf j).dev = (m.buf j).dev ∧
        (m'.buf j).blockno = (m.buf j).blockno := by
      intro j
      by_cases hji : j = i
      · rw [hji, hself]
        exact ⟨rfl, rfl⟩
      · rw [hothers j hji]
        exact ⟨rfl, rfl⟩
    intro j k
    rw [(hplace j).1, (hplace j).2, (hplace k).1, (hplace k).2]
    exact hcached.unique j k
  case data =>
    intro j hvalid
    by_cases hji : j = i
    · rw [hji, hself]
      refine ⟨hholds.dev, hrange, ?_⟩
      rw [hholds.blockno, update_self]
    · rw [hothers j hji] at hvalid ⊢
      obtain ⟨hdev, hrangej, hdata⟩ := hcached.data j hvalid
      rw [update_of_ne (hcached.blockno_ne hholds hji hdev)]
      exact ⟨hdev, hrangej, hdata⟩
  case valid =>
    intro j hdirtyj
    by_cases hji : j = i
    · rw [hji, hself] at hdirtyj ⊢
      refine ⟨rfl, ?_⟩
      rw [hholds.blockno]
      exact hdirtySelf.mpr hdirtyj
    · rw [hothers j hji] at hdirtyj ⊢
      obtain ⟨hvalid, hmem⟩ := hcached.valid j hdirtyj
      have hne := hcached.blockno_ne hholds hji (hcached.data j hvalid).1
      exact ⟨hvalid, (hdirty _ hne).mpr hmem⟩
  case pinned =>
    intro x hx
    by_cases hxb : x = b
    · subst x
      refine ⟨i, ?_⟩
      rw [hself]
      exact ⟨hholds.dev, hholds.blockno, hdirtySelf.mp hx⟩
    · obtain ⟨j, hdev, hblockno, hdirtyj⟩ := hcached.pinned x ((hdirty x hxb).mp hx)
      have hji : j ≠ i := by
        intro hji
        subst hji
        exact hxb (hblockno.symm.trans hholds.blockno)
      refine ⟨j, ?_⟩
      rw [hothers j hji]
      exact ⟨hdev, hblockno, hdirtyj⟩
  case clean =>
    intro x hx
    by_cases hxb : x = b
    · subst x
      rw [update_self]
      apply hdiskSelf
      by_contra hflag
      exact hx (hdirtySelf.mpr (by simpa using hflag))
    · rw [hdisk x hxb, update_of_ne hxb]
      exact hcached.clean x fun hmem => hx ((hdirty x hxb).mpr hmem)
  case refcnt =>
    intro j
    by_cases hji : j = i
    · rw [hji, hself]
      exact hcached.refcnt i
    · rw [hothers j hji]
      exact hcached.refcnt j

theorem Cached.written (hholds : Holds m i b) (data : Block) :
    Cached (m.written i b data) (update contents b data)
      (dirty \ {b}) := by
  apply hcached.refill hholds data false written_buf_self
  · intro j hji
    exact written_buf_of_ne hji
  · rfl
  · intro x hxb
    simp [Machine.written, hxb]
  · intro _
    simp [Machine.written]
  · intro x hxb
    simp [hxb]
  · simp

theorem ensures_bwrite (hholds : Holds m i b) (data : Block)
    (hok : ∀ m', Written m m' contents dirty i b data → Q () m') :
    Ensures (bwrite i) (m.setBuf i { m.buf i with data := data }) Q E := by
  have hrange : b < fssize := by
    rw [← hholds.blockno]
    exact (hcached.data i hholds.valid).2.1
  have hwritten : Written m (m.written i b data) contents dirty i b data := by
    constructor
    · exact hcached.written hholds data
    · constructor <;> simp [written_buf_self, hholds.dev, hholds.blockno, hholds.locked]
    · rfl
    · rfl
    · rfl
    · rfl
    · intro j hj
      exact written_buf_of_ne hj
    · rw [written_buf_self]
  have hpost := hok _ hwritten
  simp only [Machine.written, Machine.setBuf] at hpost
  simpa [bwrite, iderw, hholds.locked, hholds.dev, hrange, hholds.blockno,
    Machine.setBuf] using hpost

end

/-- What `brelse` leaves. -/
structure Released (m m' : Machine) (contents : ℕ → Block) (dirty : Set ℕ)
    (i : Fin nbuf) : Prop where
  cached : Cached m' contents dirty
  same : SameDisk m m'
  others : ∀ j, j ≠ i → m'.buf j = m.buf j
  buf : m'.buf i =
    { m.buf i with locked := false, refcnt := (m.buf i).refcnt - 1 }

theorem ensures_brelse (hcached : Cached m contents dirty) (hholds : Holds m i b)
    (hok : ∀ m', Released m m' contents dirty i → Q () m') : Ensures (brelse i) m Q E := by
  have hcached' : Cached (m.setBuf i
      { m.buf i with locked := false, refcnt := (m.buf i).refcnt - 1 })
      contents dirty := hcached.setBuf_refs (by simp)
  simp only [brelse, ensures_bind, ensures_setBuf, ensures_check, ensures_get,
    setBuf_self, hholds.locked, if_true]
  split
  · rw [ensures_modify]
    apply hok
    constructor
    · exact
        { hcached' with
          lru := by
            intro j
            by_cases hj : j = i
            · simp [hj]
            · simp [hj, List.mem_erase_of_ne, hcached.lru j] }
    · exact ⟨rfl, rfl, rfl⟩
    · intro j hj
      exact setBuf_of_ne hj
    · exact setBuf_self
  · rw [ensures_pure]
    apply hok
    exact ⟨hcached', sameDisk_setBuf, fun j hj => setBuf_of_ne hj, setBuf_self⟩

end Machine

end Xv6Kernel
