import Xv6Kernel.ProgramImages
import Xv6Kernel.UserPages

/-!
# Loading a program

Whatever the bytes of the file are, `exec` gets to its stack pages or gives up, and the user
pages of the new address space are those below its size all the time.
-/

namespace Xv6Kernel.Vm

open TraceExecution StateHoare

variable {k : KernelImage} {m m' m'' : PhysMem} {o o' o'' : ℕ → Role} {l l' l'' : List ℕ}
variable {d sz p v : ℕ}

/-- The address space `d`, of size `sz`, is new since `m`; `setupkvm` has made the tables of its
upper half. -/
structure Loaded (k : KernelImage) (d sz : ℕ) (m : PhysMem) (o : ℕ → Role) (m' : PhysMem)
    (o' : ℕ → Role) (l' : List ℕ) : Prop extends Fresh k d m o m' o' l' where
  size : sz < kernbase
  user : ∀ v < kernpage, (pteOf m' d v).isSome ↔ v < pgroundup sz
  tables : ∀ i, 512 ≤ i → i < 1024 → (pteP (m'.word d i) = true ↔ i < 568 ∨ 1016 ≤ i)

theorem pgroundup_le_kernpage (hsz : sz < kernbase) : pgroundup sz ≤ kernpage := by
  have hbase : kernbase = 2147483648 := rfl
  have hkern : kernpage = 524288 := rfl
  rw [pgroundup]
  omega

theorem NewSpace.loaded (hn : NewSpace k d m o l m' o' l') : Loaded k d 0 m o m' o' l' where
  toFresh := hn.toFresh
  size := by decide
  user := fun v hv => by simp [hn.user v hv, pgroundup]
  tables := fun i hlow hi => by
    have hmem := Finset.ext_iff.mp hn.tables i
    simp only [Finset.mem_filter, Finset.mem_range, Finset.mem_union, Finset.mem_Ico,
      hi, true_and, and_true] at hmem
    rw [hmem]
    omega

theorem Fresh.undone (hf : Fresh k d m o m' o' l') (ho : Owned k m o l)
    (hu : Undone k d m' o' m'' o'' l'') : Fresh k d m o m'' o'' l'' where
  owned := hu.owned
  free := hf.free
  dir := by rw [hu.roles d (by simp [hf.dir]), hf.dir]
  roles := fun p hp => (hu.roles p (hf.roles p hp ▸ hp)).trans (hf.roles p hp)
  words := fun p hp => by
    have hnot := hf.not_partOf ho.toFits hp
    rw [hu.words p (hf.roles p hp ▸ hp) (fun h => hnot (.inl h))
      fun i h => hnot (.inr (.inl ⟨i, h⟩)), hf.words p hp]
  taken := fun p hp => by
    rcases hf.taken p hp with hfree | hpart
    · exact (hu.taken p hfree).imp_right fun htable => .inr (.inl htable)
    · have hused : o' p ≠ .free := by
        rcases hpart with rfl | ⟨i, h⟩ | ⟨v, h⟩
        · simp [hf.dir]
        · simp [h]
        · simp [h]
      rw [PartOf, hu.roles p hused]
      exact .inr hpart

theorem Filled.kernelTable {P : ℕ → ℕ → (ℕ → ℕ) → Prop} {first a i : ℕ}
    (hf : Filled k d P first a m o l m' o' l') (ho : Owned k m o l) (hd : o d = .dir .nobody)
    (ha : a ≤ kernpage) (hlow : 512 ≤ i) (hi : i < 1024) :
    pteP (m'.word d i) = true ↔ pteP (m.word d i) = true := by
  have hkern : kernpage = 524288 := rfl
  constructor
  · intro hpresent
    rcases hf.pdes i hi hpresent with hold | ⟨v, hv, hvi⟩
    · exact hold
    · omega
  · intro hpresent
    have htable := ho.tables d _ i hd hi hpresent
    exact (hf.owned.tabled _ d i ((hf.roles _ (by simp [htable])).trans htable)).2.2.1

theorem Loaded.filled {newsz : ℕ} (hl : Loaded k d sz m o m' o' l') (ho : Owned k m o l)
    (hle : sz ≤ newsz) (hnew : newsz < kernbase)
    (hf : Filled k d zeroed (pgroundup sz) (pgroundup newsz) m' o' l' m'' o'' l'') :
    Loaded k d newsz m o m'' o'' l'' ∧
      ∀ v, pgroundup sz ≤ v → v < pgroundup newsz →
        ∃ w, pteOf m'' d v = some w ∧ pteU w = true := by
  refine ⟨⟨hl.toFresh.grown ho hf.toGrown, hnew, ?_, ?_⟩, ?_⟩
  · intro v hv
    have hmono : pgroundup sz ≤ pgroundup newsz := Nat.div_le_div_right (by omega)
    by_cases hin : pgroundup sz ≤ v ∧ v < pgroundup newsz
    · obtain ⟨w, hpte, -⟩ := hf.added v hin.1 hin.2
      simp [hpte, hin.2]
    · rw [hf.others v hin, hl.user v hv]
      omega
  · intro i hlow hi
    rw [hf.kernelTable hl.owned hl.dir (pgroundup_le_kernpage hnew) hlow hi, hl.tables i hlow hi]
  · intro v hlow hhigh
    obtain ⟨w, hpte, -, hw, -⟩ := hf.added v hlow hhigh
    refine ⟨w, hpte, ?_⟩
    have hperm : permWU ||| 1 = 7 := rfl
    rw [hw, pteU, entry, decide_eq_true_eq]
    omega

theorem Loaded.absent (hl : Loaded k d sz m o m' o' l') (v : ℕ) (hv : v < kernpage)
    (hle : pgroundup sz ≤ v) : pteOf m' d v = none := by
  have hnot := mt (hl.user v hv).mp (by omega)
  simpa using hnot

theorem Loaded.allocuvm (hl : Loaded k d sz m o m' o' l') (ho : Owned k m o l) (newsz : ℕ) :
    Ensures (allocuvm k d sz newsz) m' (fun r m'' => ∃ o'' l'',
      if r = 0 then Fresh k d m o m'' o'' l''
      else r = max sz newsz ∧ Loaded k d r m o m'' o'' l'' ∧
        ∀ v, pgroundup sz ≤ v → v < pgroundup r → ∃ w, pteOf m'' d v = some w ∧ pteU w = true)
      fun _ => False := by
  refine (allocuvm_spec sz newsz hl.owned hl.dir hl.absent).post ?_
  rintro r m'' ⟨o'', l'', ⟨hlt, rfl, rfl, rfl, rfl⟩ | ⟨hle, hnew, rfl, hf⟩ | ⟨rfl, hu, -⟩⟩
  · refine ⟨o'', l'', ?_⟩
    rw [if_neg (by omega)]
    exact ⟨by omega, hl, fun v hlow hhigh => absurd hhigh (by omega)⟩
  · refine ⟨o'', l'', ?_⟩
    split_ifs
    · exact hl.toFresh.grown ho hf.toGrown
    · exact ⟨by omega, hl.filled ho hle hnew hf⟩
  · exact ⟨o'', l'', by rw [if_pos rfl]; exact hl.toFresh.undone ho hu⟩

theorem Owned.pteOf_fill (ho : Owned k m o l) (hd : o d = .dir .nobody) (hp : o p = .frame d v)
    (content : ℕ → ℕ) : pteOf (m.fill p content) d = pteOf m d := by
  refine ho.pteOf_congr hd fun q hq => ?_
  have hne : q ≠ p := by
    rintro rfl
    rcases hq with rfl | ⟨i, hi⟩
    · simp [hd] at hp
    · simp [hi] at hp
  simp [hne]

theorem Fresh.fill (hf : Fresh k d m o m' o' l') (ho : Owned k m o l) (hp : o' p = .frame d v)
    (content : ℕ → ℕ) : Fresh k d m o (m'.fill p content) o' l' where
  owned := hf.owned.fill (by simp [hp, Role.Plain]) content
  free := hf.free
  dir := hf.dir
  roles := hf.roles
  words := fun q hq => by
    have hne : q ≠ p := by
      rintro rfl
      exact hf.not_partOf ho.toFits hq (.inr (.inr ⟨v, hp⟩))
    simp [hne, hf.words q hq]
  taken := hf.taken

theorem Loaded.fill (hl : Loaded k d sz m o m' o' l') (ho : Owned k m o l) (hp : o' p = .frame d v)
    (content : ℕ → ℕ) : Loaded k d sz m o (m'.fill p content) o' l' where
  toFresh := hl.toFresh.fill ho hp content
  size := hl.size
  user := by
    rw [hl.owned.pteOf_fill hl.dir hp content]
    exact hl.user
  tables := by
    have hne : d ≠ p := by
      rintro rfl
      simp [hl.dir] at hp
    simpa [hne] using hl.tables

theorem Loaded.loadLoop {file : List UInt8} {offset size n i : ℕ}
    (hl : Loaded k d sz m o m' o' l') (ho : Owned k m o l) (hrange : v + i + n ≤ pgroundup sz) :
    Ensures (loadLoop d v file offset size n i) m' (fun _ m'' => Loaded k d sz m o m'' o' l')
      fun _ => False := by
  induction n generalizing i m' with
  | zero => exact hl
  | succ n ih =>
    have hv : v + i < kernpage := by
      have := pgroundup_le_kernpage hl.size
      omega
    obtain ⟨w, hpte⟩ := Option.isSome_iff_exists.mp ((hl.user (v + i) hv).mpr (by omega))
    obtain ⟨hwalk, hw⟩ := walk_of_pteOf hpte
    simp only [Vm.loadLoop, ensures_bind, walkpgdir_ensures, hwalk, ensures_get, hw]
    cases readi file (uadd offset (4096 * i)) (min (size - 4096 * i) 4096) with
    | none => exact hl
    | some bytes =>
      simp only [ensures_bind, ensures_modify]
      have hnext := hl.fill ho (hl.owned.frame_of_pte hl.dir hv hpte)
        (overwrite (m'.word (pteAddr w)) 0 bytes.length (bytesOf bytes))
      split_ifs
      · exact ih hnext (by omega)
      · exact hnext

theorem uintAt_lt (bytes : List UInt8) (i : ℕ) : uintAt bytes i < 2 ^ 32 := by
  have hbyte : ∀ j, bytesOf bytes j < 256 := fun j => UInt8.toNat_lt _
  have h₀ := hbyte i
  have h₁ := hbyte (i + 1)
  have h₂ := hbyte (i + 2)
  have h₃ := hbyte (i + 2 + 1)
  simp only [uintAt, ushortAt]
  omega

theorem Loaded.loadSegments {file : List UInt8} {n off : ℕ} (hl : Loaded k d sz m o m' o' l')
    (ho : Owned k m o l) :
    Ensures (loadSegments k d file n off sz) m' (fun r m'' => ∃ o'' l'',
      match r with
      | none => Fresh k d m o m'' o'' l''
      | some sz => Loaded k d sz m o m'' o'' l'') fun _ => False := by
  induction n generalizing off sz m' o' l' with
  | zero => exact ⟨o', l', hl⟩
  | succ n ih =>
    rw [Vm.loadSegments]
    cases readAll file off 32 with
    | none => exact ⟨o', l', hl.toFresh⟩
    | some bytes =>
      simp only
      have hvaddr : (proghdr bytes).vaddr < 2 ^ 32 := uintAt_lt bytes 8
      have hmemsz : (proghdr bytes).memsz < 2 ^ 32 := uintAt_lt bytes 20
      generalize proghdr bytes = ph at hvaddr hmemsz ⊢
      by_cases htype : ph.type ≠ elfProgLoad
      · rw [if_pos htype]
        exact ih hl
      rw [if_neg htype]
      by_cases hsize : ph.memsz < ph.filesz
      · rw [if_pos hsize]
        exact ⟨o', l', hl.toFresh⟩
      rw [if_neg hsize]
      by_cases hwrap : uadd ph.vaddr ph.memsz < ph.vaddr
      · rw [if_pos hwrap]
        exact ⟨o', l', hl.toFresh⟩
      rw [if_neg hwrap]
      refine (hl.allocuvm ho _).bind ?_
      rintro r m₁ ⟨o₁, l₁, hpost⟩
      by_cases hzero : r = 0
      · rw [if_pos hzero] at hpost ⊢
        exact ⟨o₁, l₁, hpost⟩
      rw [if_neg hzero] at hpost ⊢
      by_cases halign : ph.vaddr % 4096 ≠ 0
      · rw [if_pos halign]
        exact ⟨o₁, l₁, hpost.2.1.toFresh⟩
      rw [if_neg halign, loaduvm, if_neg halign]
      -- no sum has wrapped, so the whole segment lies below the size
      refine (hpost.2.1.loadLoop ho ?_).bind fun loaded m₂ hl₂ => ?_
      · have hle := hpost.1
        rw [uadd] at hle hwrap
        simp only [pgroundup]
        omega
      · cases loaded with
        | false => exact ⟨o₁, l₁, hl₂.toFresh⟩
        | true => exact ih hl₂

/-- The last page is the user stack, and the page below it is not for the user. -/
structure Stacked (k : KernelImage) (d sz : ℕ) (m : PhysMem) (o : ℕ → Role) (m' : PhysMem)
    (o' : ℕ → Role) (l' : List ℕ) : Prop extends Loaded k d sz m o m' o' l' where
  aligned : sz % 4096 = 0
  two : 2 * 4096 ≤ sz
  stack : ∃ w, pteOf m' d (sz / 4096 - 1) = some w ∧ pteU w = true
  guard : ∃ w, pteOf m' d (sz / 4096 - 2) = some w ∧ pteU w = false

theorem Stacked.fill (hs : Stacked k d sz m o m' o' l') (ho : Owned k m o l)
    (hp : o' p = .frame d v) (content : ℕ → ℕ) : Stacked k d sz m o (m'.fill p content) o' l' := by
  have hpte := hs.owned.pteOf_fill hs.dir hp content
  exact ⟨hs.toLoaded.fill ho hp content, hs.aligned, hs.two, hpte ▸ hs.stack, hpte ▸ hs.guard⟩

theorem clearpteu_spec {w : ℕ} (hl : Loaded k d sz m o m' o' l') (ho : Owned k m o l)
    (hv : v < kernpage) (hpte : pteOf m' d v = some w) (huser : pteU w = true) :
    Ensures (clearpteu d v) m' (fun _ m'' => Loaded k d sz m o m'' o' l' ∧
      pteOf m'' d = Function.update (pteOf m' d) v (some (w - 4)) ∧ pteU (w - 4) = false)
      fun _ => False := by
  obtain ⟨hwalk, hw⟩ := walk_of_pteOf hpte
  obtain ⟨hpage, hpde, hpresent, -⟩ := pteOf_eq_some.mp hpte
  have ht := hl.owned.tables d _ (v / 1024) hl.dir (by omega) hpde
  have hbits : pteP (w - 4) = true ∧ pteAddr (w - 4) = pteAddr w ∧ pteU (w - 4) = false := by
    simp only [pteU, pteP, pteAddr, decide_eq_true_eq, decide_eq_false_iff_not] at huser hpresent ⊢
    omega
  simp only [clearpteu, ensures_bind, walkpgdir_ensures, hwalk, ensures_modify, hw, huser, if_true]
  have hupdate := hl.owned.pteOf_setWord hl.dir hpage ht (w - 4)
  rw [hbits.1, if_pos rfl] at hupdate
  refine ⟨⟨⟨?_, hl.free, hl.dir, hl.roles, ?_, hl.taken⟩, hl.size, ?_, ?_⟩, hupdate, hbits.2.2⟩
  · refine hl.owned.weaken ht (fun _ => ?_) fun hhigh => ?_
    · rw [hw, hbits.1, hpresent]
      exact ⟨rfl, hbits.2.1⟩
    · have hkern : kernpage = 524288 := rfl
      omega
  · intro q hq
    have hne : q ≠ pteAddr (m'.word d (v / 1024)) := by
      rintro rfl
      exact hl.not_partOf ho.toFits hq (.inr (.inl ⟨_, ht⟩))
    simp [hne, hl.words q hq]
  · intro v' hv'
    rw [hupdate]
    by_cases hsame : v' = v
    · rw [hsame, Function.update_self, ← hl.user v hv, hpte]
      simp
    · rw [Function.update_of_ne hsame, hl.user v' hv']
  · have hne : d ≠ pteAddr (m'.word d (v / 1024)) := by
      intro hsame
      rw [← hsame, hl.dir] at ht
      simp at ht
    simpa [hne] using hl.tables

theorem Loaded.stackPages (hl : Loaded k d sz m o m' o' l') (ho : Owned k m o l) :
    Ensures (stackPages k d sz) m' (fun r m'' => ∃ o'' l'',
      match r with
      | none => Fresh k d m o m'' o'' l''
      | some sz => Stacked k d sz m o m'' o'' l'') fun _ => False := by
  have hbase : kernbase = 2147483648 := rfl
  have hkern : kernpage = 524288 := rfl
  have hsize := hl.size
  have hround : uadd sz 4095 / 4096 = pgroundup sz := by
    rw [uadd, pgroundup]
    omega
  simp only [Vm.stackPages, hround]
  obtain ⟨q, hq⟩ : ∃ q, pgroundup sz = q := ⟨_, rfl⟩
  have hpage := pgroundup_le_kernpage hl.size
  have hnewsz : uadd (q * 4096) (2 * 4096) = q * 4096 + 2 * 4096 := by
    rw [uadd]
    omega
  have hpages : pgroundup (q * 4096) = q ∧ pgroundup (q * 4096 + 2 * 4096) = q + 2 := by
    simp only [pgroundup]
    omega
  rw [hq]
  by_cases hbig : uadd (q * 4096) (2 * 4096) ≥ kernbase
  · rw [Vm.allocuvm, if_pos hbig]
    exact ⟨o', l', hl.toFresh⟩
  have hrounded : Loaded k d (q * 4096) m o m' o' l' :=
    ⟨hl.toFresh, by omega, by rw [hpages.1, ← hq]; exact hl.user, hl.tables⟩
  refine (hrounded.allocuvm ho _).bind ?_
  rintro r m₁ ⟨o₁, l₁, hpost⟩
  by_cases hzero : r = 0
  · rw [if_pos hzero] at hpost ⊢
    exact ⟨o₁, l₁, hpost⟩
  rw [if_neg hzero, hpages.1, hnewsz, Nat.max_eq_right (by omega)] at hpost
  rw [if_neg hzero]
  obtain ⟨hr, hl₁, hnew⟩ := hpost
  rw [hr, hpages.2] at hnew
  obtain ⟨w, hpte, huser⟩ := hnew q le_rfl (by omega)
  obtain ⟨w', hpte', huser'⟩ := hnew (q + 1) (by omega) (by omega)
  rw [show (r - 2 * 4096) / 4096 = q by omega]
  refine (clearpteu_spec hl₁ ho (by omega) hpte huser).bind ?_
  rintro _ m₂ ⟨hl₂, hptes, hguard⟩
  refine ⟨o₁, l₁, hl₂, by omega, by omega, ⟨w', ?_, huser'⟩, ⟨w - 4, ?_, hguard⟩⟩
  · rw [hptes, show r / 4096 - 1 = q + 1 by omega, Function.update_of_ne (by omega), hpte']
  · rw [hptes, show r / 4096 - 2 = q by omega, Function.update_self]

def elfHeader (file : List UInt8) : Option ElfHdr :=
  ((readAll file 0 52).map elfhdr).filter fun elf => elf.magic = elfMagic

def loadImage (k : KernelImage) (d : ℕ) (file : List UInt8) (elf : ElfHdr) : Mem (Option ℕ) := do
  let loaded ← loadSegments k d file elf.phnum elf.phoff 0
  match loaded with
  | none => return none
  | some sz => stackPages k d sz

/-- `exec` up to the stack: the new address space and its size. -/
def loadProgram (k : KernelImage) (file : List UInt8) : Mem (Option (ℕ × ℕ)) :=
  match elfHeader file with
  | none => return none
  | some elf => do
      let dir ← setupkvm k
      match dir with
      | none => return none
      | some d => do
          let image ← loadImage k d file elf
          match image with
          | none => do
              freevm k d
              return none
          | some sz => return some (d, sz)

theorem loadImage_spec {elf : ElfHdr} {file : List UInt8} (ho : Owned k m o l)
    (hnew : NewSpace k d m o l m' o' l') :
    Ensures (loadImage k d file elf) m' (fun r m'' => ∃ o'' l'',
      match r with
      | none => Fresh k d m o m'' o'' l''
      | some sz => Stacked k d sz m o m'' o'' l'') fun _ => False := by
  refine (hnew.loaded.loadSegments ho).bind ?_
  rintro loaded m₁ ⟨o₁, l₁, hloaded⟩
  cases loaded with
  | none => exact ⟨o₁, l₁, hloaded⟩
  | some sz => exact hloaded.stackPages ho

theorem loadProgram_spec (ho : Owned k m o l) (file : List UInt8) :
    Ensures (loadProgram k file) m (fun r m' =>
      match r with
      | none => Restored k m o m'
      | some (d, sz) => ∃ o' l', Stacked k d sz m o m' o' l') fun _ => False := by
  rw [loadProgram]
  cases elfHeader file with
  | none => exact ⟨l, ho, fun _ _ => rfl⟩
  | some elf =>
    refine (setupkvm_spec ho).bind fun dir m₁ hdir => ?_
    cases dir with
    | none => exact hdir.1
    | some d =>
      obtain ⟨o₁, l₁, hnew⟩ := hdir
      refine (loadImage_spec ho hnew).bind ?_
      rintro image m₂ ⟨o₂, l₂, himage⟩
      cases image with
      | none =>
        refine (freevm_spec himage.owned himage.dir).bind ?_
        rintro _ m₃ ⟨o₃, l₃, hfreed⟩
        exact himage.freed ho.toFits hfreed
      | some sz => exact ⟨o₂, l₂, himage⟩

/-- No file makes the loader panic, after any number of program headers the user pages are those
below the size, and what it does not give back is the new address space. -/
theorem loader_never_panics (ho : Owned k m o l) (file : List UInt8) :
    (∃ r m', loadProgram k file m = .ok r m' ∧
      match r with
      | none => Restored k m o m'
      | some (d, sz) => sz < kernbase ∧
          (∀ v < kernpage, (pteOf m' d v).isSome ↔ v < pgroundup sz) ∧
          ∃ o' l', Fresh k d m o m' o' l') ∧
    ∀ d m₁ n off, setupkvm k m = .ok (some d) m₁ →
      ∃ r m', loadSegments k d file n off 0 m₁ = .ok r m' ∧ (∃ o' l', Fresh k d m o m' o' l') ∧
        ∀ sz, r = some sz → sz < kernbase ∧
          ∀ v < kernpage, (pteOf m' d v).isSome ↔ v < pgroundup sz := by
  refine ⟨?_, fun d m₁ n off hsetup => ?_⟩
  · obtain ⟨r, m', hrun, hpost⟩ := (loadProgram_spec ho file).total
    refine ⟨r, m', hrun, ?_⟩
    cases r with
    | none => exact hpost
    | some image =>
        obtain ⟨o', l', hs⟩ := hpost
        exact ⟨hs.size, hs.user, o', l', hs.toFresh⟩
  · obtain ⟨o₁, l₁, hnew⟩ := (setupkvm_spec ho).of_ok hsetup
    obtain ⟨r, m', hrun, o', l', hpost⟩ := (hnew.loaded.loadSegments ho).total
    refine ⟨r, m', hrun, ?_⟩
    cases r with
    | none => exact ⟨⟨o', l', hpost⟩, by simp⟩
    | some sz =>
        refine ⟨⟨o', l', hpost.toFresh⟩, fun sz' hsz => ?_⟩
        obtain rfl : sz = sz' := by simpa using hsz
        exact ⟨hpost.size, hpost.user⟩

/-! ## Programs that are loaded -/

theorem Stuck.eq_nil {l₀ : List ℕ} (hstuck : Stuck m l l₀) (hrefuse : m.refuse = fun _ => false) :
    l₀ = [] := by
  obtain ⟨n, -, -, -, hempty | hrefused⟩ := hstuck
  · exact hempty
  · simp [hrefuse] at hrefused

/-- A page takes at most a second one, for its table. -/
theorem Filled.length_le {P : ℕ → ℕ → (ℕ → ℕ) → Prop} {first a : ℕ}
    (hf : Filled k d P first a m o l m' o' l') : l.length ≤ l'.length + 2 * (a - first) := by
  have hsub : (Finset.range 1024).filter (fun i => pteP (m'.word d i) = true) ⊆
      (Finset.range 1024).filter (fun i => pteP (m.word d i) = true) ∪
        (Finset.Ico first a).image (· / 1024) := by
    intro i hi
    simp only [Finset.mem_union, Finset.mem_filter, Finset.mem_image, Finset.mem_Ico] at hi ⊢
    exact (hf.pdes i (Finset.mem_range.mp hi.1) hi.2).imp_left fun hold => ⟨hi.1, hold⟩
  have hcard := (Finset.card_le_card hsub).trans (Finset.card_union_le _ _)
  have himage := (Finset.card_image_le (s := Finset.Ico first a) (f := (· / 1024))).trans_eq
    (Nat.card_Ico _ _)
  have hcount := hf.count
  rw [Vm.tableCount, Vm.tableCount] at hcount
  omega

theorem Loaded.allocuvm_granted (newsz : ℕ) (hl : Loaded k d sz m o m' o' l') (ho : Owned k m o l)
    (hrefuse : m'.refuse = fun _ => false) (hle : sz ≤ newsz) (hnew : newsz < kernbase)
    (hroom : 2 * (pgroundup newsz - pgroundup sz) < l'.length) :
    Ensures (Vm.allocuvm k d sz newsz) m' (fun r m'' => r = newsz ∧ m''.refuse = (fun _ => false) ∧
      ∃ o'' l'', l'.length ≤ l''.length + 2 * (pgroundup newsz - pgroundup sz) ∧
        Loaded k d newsz m o m'' o'' l'' ∧
        ∀ v, pgroundup sz ≤ v → v < pgroundup newsz →
          ∃ w, pteOf m'' d v = some w ∧ pteU w = true)
      fun _ => False := by
  refine (allocuvm_spec sz newsz hl.owned hl.dir hl.absent).post ?_
  rintro r m'' ⟨o'', l'', ⟨hlt, -⟩ | ⟨-, -, rfl, hf⟩ | ⟨-, -, hlarge | hran⟩⟩
  · omega
  · exact ⟨rfl, hf.granted.1.trans hrefuse, o'', l'', hf.length_le, hl.filled ho hle hnew hf⟩
  · omega
  · obtain ⟨a, m₁, o₁, l₁, l₀, hfirst, hlast, hf, hstuck, hleft⟩ := hran
    have hlength := hf.length_le
    rw [hstuck.eq_nil hrefuse, List.length_nil] at hleft
    omega

theorem Loaded.stackPages_granted {q : ℕ} (hl : Loaded k d (4096 * q) m o m' o' l')
    (ho : Owned k m o l) (hrefuse : m'.refuse = fun _ => false)
    (hnew : 4096 * q + 2 * 4096 < kernbase) (hroom : 4 < l'.length) :
    Ensures (Vm.stackPages k d (4096 * q)) m' (fun r _ => r = some (4096 * q + 2 * 4096))
      fun _ => False := by
  have hbase : kernbase = 2147483648 := rfl
  have hkern : kernpage = 524288 := rfl
  obtain ⟨newsz, hsz⟩ : ∃ newsz, 4096 * q + 2 * 4096 = newsz := ⟨_, rfl⟩
  have htop : uadd (4096 * q) 4095 / 4096 * 4096 = 4096 * q := by
    rw [uadd]
    omega
  have hnewsz : uadd (4096 * q) (2 * 4096) = newsz := by
    rw [uadd]
    omega
  have hpages : pgroundup (4096 * q) = q ∧ pgroundup newsz = q + 2 := by
    simp only [pgroundup]
    omega
  rw [hsz] at hnew ⊢
  simp only [Vm.stackPages, htop, hnewsz]
  refine (hl.allocuvm_granted newsz ho hrefuse (by omega) hnew (by omega)).bind ?_
  rintro newsz m₁ ⟨rfl, -, o₁, l₁, -, hl₁, hadded⟩
  rw [hpages.1, hpages.2] at hadded
  obtain ⟨w, hpte, huser⟩ := hadded q le_rfl (by omega)
  rw [if_neg (by omega), show (newsz - 2 * 4096) / 4096 = q by omega]
  exact (clearpteu_spec hl₁ ho (by omega) hpte huser).bind fun _ _ _ => rfl

theorem exists_new : ∃ m o l c d m₁ o₁ l₁, Owned smallKernel m o l ∧ o c = .dir .nobody ∧
    setupkvm smallKernel m = .ok (some d) m₁ ∧ Loaded smallKernel d 0 m o m₁ o₁ l₁ ∧
    m₁.refuse = (fun _ => false) ∧ l₁.length = 35 := by
  obtain ⟨m, o, l, c, ho, hc, -, hlength, hrefuse, -⟩ :=
    exists_space (n := 100) (by omega) (by omega)
  obtain ⟨dir, m₁, hsetup, hdir⟩ := (setupkvm_spec ho).total
  cases dir with
  | none =>
    obtain ⟨-, l₀, hstuck, hle⟩ := hdir
    rw [hstuck.eq_nil hrefuse, List.length_nil] at hle
    omega
  | some d =>
    obtain ⟨o₁, l₁, hnew⟩ := hdir
    have hcount := hnew.count
    exact ⟨m, o, l, c, d, m₁, o₁, l₁, ho, hc, hsetup, hnew.loaded, hnew.granted.1.trans hrefuse,
      by omega⟩

def emptyProgram : List UInt8 := [0x7F, 0x45, 0x4C, 0x46] ++ List.replicate 48 0

theorem exists_image : ∃ m o l d m', Owned smallKernel m o l ∧
    loadProgram smallKernel emptyProgram m = .ok (some (d, 8192)) m' := by
  obtain ⟨m, o, l, -, d, m₁, o₁, l₁, ho, -, hsetup, hl, hrefuse, hlength⟩ := exists_new
  obtain ⟨_, m', hstack, rfl⟩ :=
    (hl.stackPages_granted (q := 0) ho hrefuse (by decide) (by omega)).total
  refine ⟨m, o, l, d, m', ho, Ensures.eq_ok ?_⟩
  have hheader : elfHeader emptyProgram = some ⟨elfMagic, 0, 0, 0⟩ := rfl
  rw [loadProgram, hheader]
  simp only [loadImage, loadSegments, ensures_bind, ensures_of_ok hsetup, ensures_pure]
  rw [ensures_of_ok hstack]
  exact ⟨rfl, rfl⟩

/-- A jump to itself, in a segment of one page. -/
def jumpProgram : List UInt8 :=
  [0x7F, 0x45, 0x4C, 0x46] ++ List.replicate 24 0 ++ [52, 0, 0, 0] ++ List.replicate 12 0 ++
    [1, 0] ++ List.replicate 6 0 ++
  [1, 0, 0, 0, 84, 0, 0, 0] ++ List.replicate 8 0 ++ [4, 0, 0, 0, 0, 16, 0, 0] ++
    List.replicate 8 0 ++
  [0xEB, 0xFE, 0x90, 0x90]

theorem elfHeader_jump : elfHeader jumpProgram = some ⟨elfMagic, 0, 52, 1⟩ := rfl

theorem Loaded.loadSegments_jump (hl : Loaded k d 0 m o m' o' l') (ho : Owned k m o l)
    (hrefuse : m'.refuse = fun _ => false) (hroom : 2 < l'.length) :
    Ensures (Vm.loadSegments k d jumpProgram 1 52 0) m' (fun r m'' => r = some 4096 ∧
      m''.refuse = (fun _ => false) ∧ ∃ o'' l'', l'.length ≤ l''.length + 2 ∧
        Loaded k d 4096 m o m'' o'' l'') fun _ => False := by
  have hread : readAll jumpProgram 52 32 = some ((jumpProgram.drop 52).take 32) := rfl
  have hheader : proghdr ((jumpProgram.drop 52).take 32) = ⟨elfProgLoad, 84, 0, 4, 4096⟩ := rfl
  have hcode : readi jumpProgram (uadd 84 (4096 * 0)) (min (4 - 4096 * 0) 4096) =
      some [0xEB, 0xFE, 0x90, 0x90] := by
    rw [uadd]
    rfl
  have hend : uadd 0 4096 = 4096 := by simp [uadd]
  simp only [Vm.loadSegments, hread, hheader, hend]
  rw [if_neg (by decide), if_neg (by decide), if_neg (by decide)]
  refine (hl.allocuvm_granted 4096 ho hrefuse (by decide) (by decide) hroom).bind ?_
  rintro _ m₁ ⟨rfl, hrefuse₁, o₁, l₁, hlength, hl₁, hadded⟩
  obtain ⟨w, hpte, -⟩ := hadded 0 le_rfl (by decide)
  obtain ⟨hwalk, hw⟩ := walk_of_pteOf hpte
  have hframe := hl₁.owned.frame_of_pte hl₁.dir (by decide) hpte
  have hpages : pgroundup 4 = 1 := rfl
  rw [if_neg (by decide), if_neg (by decide), loaduvm, if_neg (by decide), hpages]
  simp only [Vm.loadLoop, ensures_bind, walkpgdir_ensures, Nat.zero_div, Nat.add_zero, hwalk,
    ensures_get, hw, hcode]
  rw [ensures_modify, if_pos (by decide), ensures_pure, if_pos rfl, ensures_pure]
  exact ⟨rfl, hrefuse₁, o₁, l₁, hlength, hl₁.fill ho hframe _⟩

theorem exists_stack : ∃ m o l c d m₁ m₂ m', Owned smallKernel m o l ∧ o c = .dir .nobody ∧
    setupkvm smallKernel m = .ok (some d) m₁ ∧
    loadSegments smallKernel d jumpProgram 1 52 0 m₁ = .ok (some 4096) m₂ ∧
    stackPages smallKernel d 4096 m₂ = .ok (some 12288) m' ∧
    ∃ o' l', Stacked smallKernel d 12288 m o m' o' l' := by
  obtain ⟨m, o, l, c, d, m₁, o₁, l₁, ho, hc, hsetup, hl, hrefuse, hlength⟩ := exists_new
  obtain ⟨_, m₂, hload, rfl, hrefuse₂, o₂, l₂, hlength₂, hl₂⟩ :=
    (hl.loadSegments_jump ho hrefuse (by omega)).total
  obtain ⟨_, m', hstack, rfl⟩ :=
    (hl₂.stackPages_granted (q := 1) ho hrefuse₂ (by decide) (by omega)).total
  obtain ⟨o', l', hs⟩ := (hl₂.stackPages ho).of_ok hstack
  exact ⟨m, o, l, c, d, m₁, m₂, m', ho, hc, hsetup, hload, hstack, o', l', hs⟩

theorem exists_jumpImage : ∃ m o l d m', Owned smallKernel m o l ∧
    loadProgram smallKernel jumpProgram m = .ok (some (d, 12288)) m' := by
  obtain ⟨m, o, l, -, d, m₁, m₂, m', ho, -, hsetup, hload, hstack, -⟩ := exists_stack
  refine ⟨m, o, l, d, m', ho, Ensures.eq_ok ?_⟩
  rw [loadProgram, elfHeader_jump]
  simp only [loadImage, ensures_bind, ensures_of_ok hsetup, ensures_of_ok hload,
    ensures_of_ok hstack, ensures_pure, and_self]

/-- The page of the segment and the two of the stack. -/
theorem loader_never_panics_jump : ∃ m d m',
    loadProgram smallKernel jumpProgram m = .ok (some (d, 12288)) m' ∧
      ∀ v < kernpage, (pteOf m' d v).isSome ↔ v < 3 := by
  obtain ⟨m, o, l, d, m', ho, hload⟩ := exists_jumpImage
  obtain ⟨r, m'', hrun, hpost⟩ := (loader_never_panics ho jumpProgram).1
  obtain ⟨rfl, rfl⟩ : some (d, 12288) = r ∧ m' = m'' := by
    simpa using hload.symm.trans hrun
  exact ⟨m, d, m', hload, hpost.2.1⟩

end Xv6Kernel.Vm
