import Xv6Kernel.ArgumentStack
import Xv6Kernel.PageCopies
import Xv6Kernel.PathResolution

/-!
# The system call `exec`

The whole call, run alone: the file, the transaction, the memory, and the fields of the process.
All its failures leave by one exit, `bad`, with or without a new address space and with or without
the inode.
-/

namespace Xv6Kernel.Vm

open TraceExecution StateHoare List

/-- What `exec` writes of `struct proc` and the trap frame. -/
structure ExecProc where
  pgdir : ℕ
  sz : ℕ
  eip : ℕ
  esp : ℕ
  name : List Char

structure ExecState (P : Type) where
  fs : FileSystem P
  outstanding : ℕ
  mem : PhysMem
  proc : ExecProc

variable {P α : Type}

def onPages (x : Mem α) : EStateM Stop (ExecState P) α :=
  zoom ExecState.mem (fun s m => { s with mem := m }) x

def onFiles [DecidableEq P] (p : P) (code : FsCode α) : EStateM Stop (ExecState P) α :=
  zoom ExecState.fs (fun s fs => { s with fs }) (alone p code)

def beginOp : EStateM Stop (ExecState P) Unit :=
  modify fun s => { s with outstanding := s.outstanding + 1 }

def endOp : EStateM Stop (ExecState P) Unit :=
  modify fun s => { s with outstanding := s.outstanding - 1 }

def bad [DecidableEq P] (k : KernelImage) (p : P) (pgdir : Option ℕ) (ip : Option ISlot) :
    EStateM Stop (ExecState P) ℤ := do
  pgdir.forM fun d => onPages (freevm k d)
  ip.forM fun ip => do
    onFiles p (iunlockput ip)
    endOp
  return -1

def lastElement (path : List Char) : List Char :=
  path.foldl (fun last c => if c = '/' then [] else last ++ [c]) []

/-- `exec`, where `null` is the read through a missing entry, and `contents` has the bytes of the
files by their inode numbers. -/
def execWith [DecidableEq P] (null : Mem ℕ) (k : KernelImage) (contents : ℕ → List UInt8) (p : P)
    (path : List Char) (argv : List CString) : EStateM Stop (ExecState P) ℤ := do
  beginOp
  let found ← onFiles p (namei path)
  match found with
  | none => do
      endOp
      return -1
  | some ip => do
      onFiles p (ilock ip)
      let s ← get
      let file := contents (s.fs.icache ip).inum
      match elfHeader file with
      | none => bad k p none (some ip)
      | some elf => do
          let dir ← onPages (setupkvm k)
          match dir with
          | none => bad k p none (some ip)
          | some d => do
              let loaded ← onPages (loadSegments k d file elf.phnum elf.phoff 0)
              match loaded with
              | none => bad k p (some d) (some ip)
              | some sz => do
                  onFiles p (iunlockput ip)
                  endOp
                  let image ← onPages (stackPages k d sz)
                  match image with
                  | none => bad k p (some d) none
                  | some sz => do
                      let frame ← onPages (pushFrame null d argv sz)
                      match frame with
                      | none => bad k p (some d) none
                      | some esp => do
                          let name := (lastElement path).take 15
                          let s ← get
                          modify fun s => { s with proc := ⟨d, sz, elf.entry, esp, name⟩ }
                          onPages (freevm k s.proc.pgdir)
                          return 0

/-- The entry is read at the address zero of the process. -/
def exec [DecidableEq P] (k : KernelImage) (contents : ℕ → List UInt8) (p : P)
    (path : List Char) (argv : List CString) : EStateM Stop (ExecState P) ℤ := do
  let s ← get
  execWith (wordAtNull s.proc.pgdir) k contents p path argv

/-! ## Up to the exit -/

variable [Fintype P] [DecidableEq P] {k : KernelImage} {m' : PhysMem} {o o' : ℕ → Role}
variable {l l' : List ℕ} {d sz esp : ℕ} {null : Mem ℕ} {h : Holder} {p : P} {cwd ip : ISlot}
variable {held : Option ISlot} {s t : ExecState P} {argv : List CString}

/-- A state of `exec` before it changes the process, with the inode that it holds. -/
structure Midway (p : P) (s : ExecState P) (held : Option ISlot) (t : ExecState P) : Prop where
  proc : t.proc = s.proc
  order : InOrder p held.toFinset (refTo held) t.fs
  still : Still 0 s.fs t.fs
  outstanding : t.outstanding = s.outstanding + held.toFinset.card

omit [DecidableEq P] in
theorem Midway.setMem (hm : Midway p s held t) (m' : PhysMem) :
    Midway p s held { t with mem := m' } := ⟨hm.proc, hm.order, hm.still, hm.outstanding⟩

theorem Midway.iunlockput (hm : Midway p s (some ip) t) :
    Ensures (alone p (iunlockput ip)) t.fs
      (fun _ fs => Midway p s none { t with fs, outstanding := t.outstanding - 1 })
      fun _ => True := by
  have horder := hm.order
  rw [Option.toFinset_some, refTo_some, ← zero_add (one ip)] at horder
  have hnonneg := t.fs.held_nonneg ip
  refine ensures_iunlockput horder (Finset.mem_singleton_self ip) (by simpa using hnonneg)
    fun fs order still _ => ?_
  refine ⟨hm.proc, by simpa [refTo] using order, hm.still.trans still, ?_⟩
  have := hm.outstanding
  simp at this ⊢
  omega

theorem Midway.bad (hm : Midway p s held t) (ho : Owned k s.mem o l) {pgdir : Option ℕ}
    (hmem : match pgdir with
      | none => Restored k s.mem o t.mem
      | some d => ∃ o' l', Fresh k d s.mem o t.mem o' l') :
    Ensures (bad k p pgdir held) t
      (fun r t' => r = -1 ∧ Midway p s none t' ∧ Restored k s.mem o t'.mem) fun _ => True := by
  have hrest : ∀ u, Midway p s held u → Restored k s.mem o u.mem →
      Ensures (held.forM (fun ip => do onFiles p (Xv6Kernel.iunlockput ip); endOp)) u
        (fun _ t' => Midway p s none t' ∧ Restored k s.mem o t'.mem) fun _ => True := by
    intro u hu hrestored
    cases held with
    | none => exact ⟨hu, hrestored⟩
    | some ip =>
      simp only [Option.forM, ensures_bind, onFiles, ensures_zoom, endOp, ensures_modify]
      exact hu.iunlockput.post fun _ _ hm' => ⟨hm', hrestored⟩
  simp only [Vm.bad, ensures_bind, ensures_pure, true_and]
  cases pgdir with
  | none => exact hrest t hm hmem
  | some d =>
    obtain ⟨o', l', hfresh⟩ := hmem
    simp only [Option.forM, onPages, ensures_zoom]
    refine (freevm_spec hfresh.owned hfresh.dir).mono ?_ fun _ => False.elim
    rintro - m'' ⟨o'', l'', hfreed⟩
    exact hrest _ (hm.setMem m'') (hfresh.freed ho.toFits hfreed)

/-- The process has the new image and nothing of the old one, or everything is as before. -/
def ExecPost (k : KernelImage) (p : P) (o : ℕ → Role) (argv : List CString) (s : ExecState P)
    (r : ℤ) (t : ExecState P) : Prop :=
  r = -1 ∧ Midway p s none t ∧ Restored k s.mem o t.mem ∨
    r = 0 ∧ ∃ m' o' l' o'' l'', Stacked k t.proc.pgdir t.proc.sz s.mem o m' o' l' ∧
      CallFrame m' t.proc.pgdir t.proc.sz t.proc.esp argv ∧ Freed k s.proc.pgdir m' o' t.mem o'' l''

theorem execWith_spec (ho : Owned k s.mem o l) (hd : o s.proc.pgdir = .dir h)
    (hfs : InOrder p ∅ 0 s.fs) (hcwd : s.fs.cwd p = some cwd) (contents : ℕ → List UInt8)
    (path : List Char)
    (hpush : ∀ {d sz m' o' l'}, Stacked k d sz s.mem o m' o' l' →
      Ensures (pushFrame null d argv sz) m' (fun r m'' => Stacked k d sz s.mem o m'' o' l' ∧
        ∀ esp, r = some esp → CallFrame m'' d sz esp argv) fun _ => True) :
    Ensures (execWith null k contents p path argv) s (ExecPost k p o argv s) fun _ => True := by
  have hrestored : Restored k s.mem o s.mem := ⟨l, ho, fun _ _ => rfl⟩
  have hgive : ∀ {held pgdir t}, Midway p s held t → (match pgdir with
        | none => Restored k s.mem o t.mem
        | some d => ∃ o' l', Fresh k d s.mem o t.mem o' l') →
      Ensures (Vm.bad k p pgdir held) t (ExecPost k p o argv s) fun _ => True :=
    fun hm hmem => (hm.bad ho hmem).post fun _ _ => .inl
  simp only [execWith, beginOp, onFiles, namei, ensures_bind, ensures_modify, ensures_zoom,
    ensures_alone_bind, ensures_alone_pure]
  refine (ensures_namex false path hfs (fun _ => le_rfl) hcwd).mono ?_ fun _ _ => trivial
  rintro (_ | ⟨ip, name⟩) fs₁ ⟨-, hwalked⟩
  · refine .inl ⟨rfl, ⟨rfl, by simpa [refs] using hwalked.order, hwalked.still, by simp⟩, hrestored⟩
  have horder : InOrder p ∅ (one ip) fs₁ := by simpa [refs] using hwalked.order
  have hpos : 0 < (fs₁.icache ip).ref := by
    have := fs₁.held_nonneg ip
    simp only [horder.ref, Pi.single_eq_same]
    omega
  simp only [Option.map_some, ensures_bind, ensures_zoom, ensures_get]
  refine ensures_ilock horder hpos (by simp) (fun _ => trivial) fun fs₂ horder₂ hstill₂ _ _ => ?_
  have hm : Midway p s (some ip) ⟨fs₂, s.outstanding + 1, s.mem, s.proc⟩ := by
    refine ⟨rfl, by simpa using horder₂, hwalked.still.trans (hstill₂.mono fun e => ?_), by simp⟩
    simpa using le_add_one 0 ip e
  generalize contents _ = file
  cases elfHeader file with
  | none => exact hgive hm hrestored
  | some elf =>
    simp only [ensures_bind, onPages, ensures_zoom]
    refine (setupkvm_spec ho).mono ?_ fun _ => False.elim
    rintro (_ | d) m₁ hdir
    · exact hgive (hm.setMem m₁) hdir.1
    obtain ⟨o₁, l₁, hnew⟩ := hdir
    simp only [ensures_bind, ensures_zoom]
    refine (hnew.loaded.loadSegments ho).mono ?_ fun _ => False.elim
    rintro (_ | sz) m₂ ⟨o₂, l₂, hloaded⟩
    · exact hgive (hm.setMem m₂) ⟨o₂, l₂, hloaded⟩
    simp only [ensures_bind, ensures_zoom, endOp, ensures_modify]
    refine (hm.setMem m₂).iunlockput.post fun _ fs₃ hm₃ => ?_
    refine (hloaded.stackPages ho).mono ?_ fun _ => False.elim
    rintro (_ | sz') m₃ ⟨o₃, l₃, himage⟩
    · exact hgive (hm₃.setMem m₃) ⟨o₃, l₃, himage⟩
    simp only [ensures_bind, ensures_zoom]
    refine (hpush himage).post ?_
    rintro (_ | esp) m₄ ⟨hstacked, hframe⟩
    · exact hgive (hm₃.setMem m₄) ⟨o₃, l₃, hstacked.toFresh⟩
    simp only [ensures_bind, ensures_zoom, ensures_get, ensures_modify, ensures_pure]
    have hold : o₃ s.proc.pgdir = .dir h := by rw [hstacked.roles _ (by simp [hd]), hd]
    refine (freevm_spec hstacked.owned hold).mono ?_ fun _ => False.elim
    rintro - m₅ ⟨o₅, l₅, hfreed⟩
    exact .inr ⟨rfl, m₄, o₃, l₃, o₅, l₅, hstacked, hframe esp rfl, hfreed⟩

theorem noGap_of_short {args : List CString} {sp : ℕ}
    (hshort : ∀ arg ∈ args, arg.bytes.length < 4096) (hsz : 8192 ≤ sz) (hbase : sz < kernbase)
    (hlow : sz ≤ sp + 4096) (hhigh : sp ≤ sz) (haligned : sp % 4 = 0) : NoGap sz args sp := by
  induction args generalizing sp with
  | nil => trivial
  | cons arg rest ih =>
    have hlength := hshort arg mem_cons_self
    rw [kernbase] at hbase
    have hbelow : arg.below sp < sp ∧ sp ≤ arg.below sp + 4096 ∧ arg.below sp % 4 = 0 := by
      rw [CString.below, usub]
      omega
    rw [NoGap]
    split_ifs with hin
    · exact ih (fun a ha => hshort a (mem_cons_of_mem arg ha)) hin.1 hin.2.le hbelow.2.2
    · left
      omega

/-- With strings that fit in a page, a call that returns -1 changes nothing of the process, its
memory and its files, and gives back all that it took. -/
theorem exec_failure_restores (ho : Owned k s.mem o l) (hd : o s.proc.pgdir = .dir h)
    (hfs : InOrder p ∅ 0 s.fs) (hcwd : s.fs.cwd p = some cwd) {contents : ℕ → List UInt8}
    {path : List Char} (hshort : ∀ arg ∈ argv, arg.bytes.length < 4096)
    (hrun : exec k contents p path argv s = .ok (-1) t) :
    t.proc = s.proc ∧ t.fs.cwd = s.fs.cwd ∧ t.fs.ofile = s.fs.ofile ∧ t.fs.ftable = s.fs.ftable ∧
      (∀ v < kernpage, seen t.mem s.proc.pgdir v = seen s.mem s.proc.pgdir v) ∧
      (∀ q, IsFree t.mem q ↔ IsFree s.mem q) ∧
      (∀ e, (t.fs.icache e).lock = (s.fs.icache e).lock ∧
        (t.fs.icache e).ref = (s.fs.icache e).ref) ∧
      t.outstanding = s.outstanding := by
  have hspec : Ensures (execWith (wordAtNull s.proc.pgdir) k contents p path argv) s
      (ExecPost k p o argv s) fun _ => True := by
    refine execWith_spec ho hd hfs hcwd contents path fun {d sz m' o' l'} hs => ?_
    obtain ⟨hbase, hpages, htwo⟩ := hs.size_le
    have hgap : NoGap sz (argv.take maxarg) sz :=
      noGap_of_short (fun a ha => hshort a (List.mem_of_mem_take ha)) (by omega) hbase
        (by omega) le_rfl (by omega)
    refine (pushFrame_clean hs ho hgap _).mono ?_ fun _ _ => trivial
    exact fun r m'' hpost => ⟨hpost.1, fun esp hr => (hpost.2 esp hr).2⟩
  rcases hspec.of_ok hrun with ⟨-, hm, l', ho', hwords⟩ | ⟨hzero, -⟩
  · refine ⟨hm.proc, hm.still.cwd, hm.still.ofile, hm.still.ftable,
      (ho.seen_of_words hd hwords).2, ?_, ?_, by simpa using hm.outstanding⟩
    · exact fun q => ho'.isFree_iff.trans ho.isFree_iff.symm
    · intro e
      rw [hm.order.lock, hfs.lock, hm.order.ref, hfs.ref, hm.still.held]
      exact ⟨rfl, rfl⟩
  · exact absurd hzero (by decide)

/-- `/init` is called, in an address space without pages. -/
def initCall (m : PhysMem) (c : ℕ) : ExecState Unit := ⟨initFs, 0, m, ⟨c, 0, 0, 0, []⟩⟩

theorem exists_exec : ∃ m o l c d m' fs, Owned smallKernel m o l ∧ o c = .dir .nobody ∧
    (∃ o' l', Stacked smallKernel d 12288 m o m' o' l') ∧ ∀ null argv m₃ m₄,
      (∀ esp, pushFrame null d argv 12288 m' = .ok (some esp) m₃ →
        freevm smallKernel c m₃ = .ok () m₄ →
        execWith null smallKernel (fun _ => jumpProgram) () "/init".toList argv (initCall m c) =
          .ok 0 ⟨fs, 0, m₄, ⟨d, 12288, 0, esp, "init".toList⟩⟩) ∧
      (pushFrame null d argv 12288 m' = .ok none m₃ → freevm smallKernel d m₃ = .ok () m₄ →
        execWith null smallKernel (fun _ => jumpProgram) () "/init".toList argv (initCall m c) =
          .ok (-1) ⟨fs, 0, m₄, ⟨c, 0, 0, 0, []⟩⟩) := by
  obtain ⟨m, o, l, c, d, m₁, m₂, m', ho, hc, hsetup, hload, hstack, hs⟩ := exists_stack
  obtain ⟨fs₁, fs₂, fs₃, hlookup, hlock, hput⟩ : ∃ fs₁ fs₂ fs₃,
      alone () (namei "/init".toList) initFs = .ok (some 1) fs₁ ∧
      alone () (ilock 1) fs₁ = .ok () fs₂ ∧ alone () (iunlockput 1) fs₂ = .ok () fs₃ :=
    ⟨_, _, _, eq_ok (by decide +kernel), eq_ok (by decide +kernel), eq_ok (by decide +kernel)⟩
  refine ⟨m, o, l, c, d, m', fs₃, ho, hc, hs, fun null argv m₃ m₄ => ⟨?_, ?_⟩⟩
  · intro esp hpush hfree
    apply Ensures.eq_ok
    simp only [execWith, initCall, beginOp, onFiles, onPages, endOp, ensures_bind, ensures_modify,
      ensures_get, ensures_zoom, ensures_pure, ensures_of_ok hlookup, ensures_of_ok hlock,
      elfHeader_jump, ensures_of_ok hsetup, ensures_of_ok hload, ensures_of_ok hput,
      ensures_of_ok hstack, ensures_of_ok hpush, ensures_of_ok hfree]
    exact ⟨trivial, rfl⟩
  · intro hpush hfree
    apply Ensures.eq_ok
    simp only [execWith, initCall, beginOp, onFiles, onPages, endOp, bad, Option.forM, ensures_bind,
      ensures_modify, ensures_get, ensures_zoom, ensures_pure, ensures_of_ok hlookup,
      ensures_of_ok hlock, elfHeader_jump, ensures_of_ok hsetup, ensures_of_ok hload,
      ensures_of_ok hput, ensures_of_ok hstack, ensures_of_ok hpush, ensures_of_ok hfree, and_self]

/-- Two strings that do not fit in the stack page. -/
theorem exec_failure_restores_tooLong : ∃ (m : PhysMem) (c : ℕ) (arg : CString)
    (t : ExecState Unit), arg.bytes.length = 3000 ∧
    exec smallKernel (fun _ => jumpProgram) () "/init".toList [arg, arg] (initCall m c) =
      .ok (-1) t ∧ (∀ q, IsFree t.mem q ↔ IsFree m q) ∧ t.outstanding = 0 := by
  obtain ⟨m, o, l, c, d, m', fs, ho, hc, ⟨o', l', hs⟩, hexec⟩ := exists_exec
  obtain ⟨arg, hlength⟩ := exists_cstring 3000 (by decide)
  have hshort : ∀ a ∈ [arg, arg], a.bytes.length < 4096 := by simp [hlength]
  obtain ⟨sz, hsz⟩ : ∃ sz, 12288 = sz := ⟨_, rfl⟩
  rw [hsz] at hs hexec
  have hgap : NoGap sz ([arg, arg].take maxarg) sz :=
    noGap_of_short hshort (by omega) hs.size (by omega) le_rfl (by omega)
  obtain ⟨r, m₃, hpush, hs₃, hfits⟩ := (pushFrame_clean hs ho hgap (wordAtNull c)).total
  have hlarge : 4096 < frameSize [arg, arg] := by simp [frameSize, CString.room, hlength]
  cases r with
  | some esp => exact absurd (hfits esp rfl).1 (by omega)
  | none =>
    obtain ⟨⟨⟩, m₄, hfree, -⟩ := (freevm_spec hs₃.owned hs₃.dir).total
    have hrun : exec smallKernel (fun _ => jumpProgram) () "/init".toList [arg, arg]
        (initCall m c) = .ok (-1) ⟨fs, 0, m₄, ⟨c, 0, 0, 0, []⟩⟩ := by
      apply Ensures.eq_ok
      simp only [exec, ensures_bind, ensures_get]
      exact (ensures_of_ok ((hexec _ _ m₃ m₄).2 hpush hfree)).mpr ⟨rfl, rfl⟩
    have hpost := exec_failure_restores ho hc initFs_inOrder rfl hshort hrun
    exact ⟨m, c, arg, _, hlength, hrun, hpost.2.2.2.2.2.1, hpost.2.2.2.2.2.2.2⟩

omit [DecidableEq P] [Fintype P] in
theorem CallFrame.congr {m : PhysMem} (hframe : CallFrame m d sz esp argv) (hsz : sz < kernbase)
    (hseen : ∀ v < kernpage, seen m' d v = seen m d v) : CallFrame m' d sz esp argv := by
  have hword : ∀ a < sz, userWord m' d a = userWord m d a := by
    intro a ha
    have hmap : ∀ m, userWord m d a = (seen m d (a / 4096)).map fun page =>
        page.2 (a % 4096 / 4) := by
      intro m
      rw [userWord, seen, Option.map_map]
      rfl
    have hbase : kernbase = 4096 * kernpage := rfl
    rw [hmap, hmap, hseen _ (by omega)]
  obtain ⟨blocks, rfl, hwords, hstrings, hapart, hinside⟩ := hframe
  refine ⟨blocks, rfl, ?_, ?_, hapart, hinside⟩
  · intro i word hi
    have hlt := (List.getElem?_eq_some_iff.mp hi).1
    have hrange := (hinside (esp, 4 * ((blocks.map Prod.snd).length + 4)) (by simp)).2
    simp only [length_append, length_map, length_cons, length_nil] at hlt hrange
    rw [hword _ (by omega), hwords i word hi]
  · intro b hb
    have hrange := (hinside (b.1, b.2.bytes.length + 1) (mem_append_left _ (mem_map_of_mem hb))).2
    simp only at hrange
    refine ⟨(hstrings b hb).1, fun i hi => ?_⟩
    rw [userByte, hword _ (by omega)]
    exact (hstrings b hb).2 i hi

/-- A call that returns 0 and finds an entry in every lookup, so that it does not matter what is
read without one, leaves the words and the strings in the page above an inaccessible one. -/
theorem exec_builds_frame (ho : Owned k s.mem o l) (hd : o s.proc.pgdir = .dir h)
    (hfs : InOrder p ∅ 0 s.fs) (hcwd : s.fs.cwd p = some cwd) {contents : ℕ → List UInt8}
    {path : List Char} (hrun : ∀ null, execWith null k contents p path argv s = .ok 0 t) :
    t.proc.sz % 4096 = 0 ∧ CallFrame t.mem t.proc.pgdir t.proc.sz t.proc.esp argv ∧
      ∃ w, pteOf t.mem t.proc.pgdir (t.proc.sz / 4096 - 2) = some w ∧ pteU w = false := by
  have hspec : Ensures (execWith (throw .blocked) k contents p path argv) s
      (ExecPost k p o argv s) fun _ => True := by
    refine execWith_spec ho hd hfs hcwd contents path fun hs => ?_
    refine (pushFrame_spec hs ho (.inr rfl)).mono ?_ fun _ _ => trivial
    exact fun r m'' hpost => ⟨hpost.2.1, fun esp hr => (hpost.2.2 esp hr).2⟩
  rcases hspec.of_ok (hrun _) with ⟨hfailed, -⟩ | ⟨-, m', o', l', o'', l'', hs, hframe, hfreed⟩
  · exact absurd hfailed (by decide)
  have hold : o' s.proc.pgdir = .dir h := by rw [hs.roles _ (by simp [hd]), hd]
  have hne : t.proc.pgdir ≠ s.proc.pgdir := by
    intro hsame
    have hfree := hs.free
    rw [hsame, hd] at hfree
    cases hfree
  -- The old address space has no page of the new one.
  have hapart : ∀ q, PartOf o' t.proc.pgdir q → ¬ PartOf o' s.proc.pgdir q :=
    fun q hnew hpart => hne (hnew.dir_unique hpart hs.dir hold)
  obtain ⟨hptes, hseen⟩ := hs.owned.seen_of_part hs.dir fun q hq =>
    hfreed.words q (hapart q hq) (hq.ne_free hs.dir)
  exact ⟨hs.aligned, hframe.congr hs.size hseen, hptes ▸ hs.guard⟩

/-- `init -q`. -/
theorem exec_builds_frame_twoArgs : ∃ (m : PhysMem) (c : ℕ) (init quiet : CString)
    (t : ExecState Unit), init.bytes = [105, 110, 105, 116] ∧ quiet.bytes = [45, 113] ∧
    (∀ null, execWith null smallKernel (fun _ => jumpProgram) () "/init".toList [init, quiet]
      (initCall m c) = .ok 0 t) ∧
    CallFrame t.mem t.proc.pgdir t.proc.sz t.proc.esp [init, quiet] := by
  obtain ⟨m, o, l, c, d, m', fs, ho, hc, ⟨o', l', hs⟩, hexec⟩ := exists_exec
  obtain ⟨esp, m₃, hpush, hs₃⟩ := pushFrame_fits [⟨[105, 110, 105, 116], by decide, by decide⟩,
    ⟨[45, 113], by decide, by decide⟩] hs ho (by decide) (by decide)
  have hold : o' c = .dir .nobody := by rw [hs.roles _ (by simp [hc]), hc]
  obtain ⟨⟨⟩, m₄, hfree, -⟩ := (freevm_spec hs₃.owned hold).total
  have hrun := fun null => (hexec null _ m₃ m₄).1 esp (hpush null) hfree
  exact ⟨m, c, _, _, _, rfl, rfl, hrun, (exec_builds_frame ho hc initFs_inOrder rfl hrun).2.1⟩

end Xv6Kernel.Vm
