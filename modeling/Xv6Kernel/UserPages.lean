import Xv6Kernel.AddressSpaceCalls

/-!
# User memory grows and shrinks

What a process sees of an address space: for every user page that is present its entry and
its contents.  `allocuvm` adds zeroed pages or leaves everything as it was; `growproc` does
what its comment says as long as the new size is positive.
-/

namespace Xv6Kernel.Vm

open TraceExecution StateHoare Finset Option

def seen (m : PhysMem) (d v : ℕ) : Option (ℕ × (ℕ → ℕ)) :=
  (pteOf m d v).map fun w => (w, m.word (pteAddr w))

def freeAt (m : PhysMem) : ℕ → Option ℕ
  | 0 => m.freelist
  | n + 1 => (freeAt m n).bind m.next

def IsFree (m : PhysMem) (p : ℕ) : Prop := ∃ n, freeAt m n = some p

variable {k : KernelImage} {m m' m'' : PhysMem} {o o' o'' : ℕ → Role} {l l' l'' : List ℕ}
  {c d p v oldsz newsz : ℕ} {h h' : Holder}

theorem Owned.freeAt (ho : Owned k m o l) (n : ℕ) : freeAt m n = l[n]? := by
  induction n with
  | zero =>
    rw [Vm.freeAt, ho.linked.head_eq]
    exact List.head?_eq_getElem?
  | succ n ih => rw [Vm.freeAt, ih, ho.linked.getElem?_succ]

theorem Owned.isFree_iff (ho : Owned k m o l) : IsFree m p ↔ o p = .free := by
  rw [← ho.free_iff, List.mem_iff_getElem?, IsFree]
  simp only [ho.freeAt]

theorem seen_of_pteOf {w : ℕ} (hpte : pteOf m d v = some w) :
    seen m d v = some (w, m.word (pteAddr w)) := by
  rw [seen, hpte, map_some]

theorem seen_eq_none : seen m d v = none ↔ pteOf m d v = none := map_eq_none_iff

theorem Owned.seen_congr (ho : Owned k m o l) (hd : o d = .dir h) (hv : v < kernpage)
    (hpte : pteOf m' d v = pteOf m d v) (hword : ∀ p, o p = .frame d v → m'.word p = m.word p) :
    seen m' d v = seen m d v := by
  rw [seen, seen, hpte]
  cases hw : pteOf m d v with
  | none => rfl
  | some w =>
    rw [map_some, map_some]
    rw [hword _ (ho.frame_of_pte hd hv hw)]

theorem frame_ne (hd : o d = .dir h) (hp : o p = .frame d v) :
    o p ≠ .free ∧ p ≠ d ∧ ∀ i, o p ≠ .table d i := by
  refine ⟨by simp [hp], ?_, by simp [hp]⟩
  rintro rfl
  simp [hd] at hp

theorem Filled.seen_others {P : ℕ → ℕ → (ℕ → ℕ) → Prop} {first a : ℕ}
    (hf : Filled k d P first a m o l m' o' l') (ho : Owned k m o l) (hd : o d = .dir h)
    (hv : v < kernpage) (hout : ¬ (first ≤ v ∧ v < a)) : seen m' d v = seen m d v := by
  refine ho.seen_congr hd hv (hf.others v hout) ?_
  intro p hp
  obtain ⟨hused, hpd, htable⟩ := frame_ne hd hp
  exact hf.words p hused hpd htable

theorem Undone.seen (hu : Undone k d m o m' o' l') (ho : Owned k m o l) (hd : o d = .dir h)
    (hv : v < kernpage) : seen m' d v = seen m d v := by
  refine ho.seen_congr hd hv (by rw [hu.ptes]) ?_
  intro p hp
  obtain ⟨hused, hpd, htable⟩ := frame_ne hd hp
  exact hu.words p hused hpd htable

theorem Shrunk.seen_kept {old : ℕ → Prop} (hs : Shrunk k d old m o m' o' l') (ho : Owned k m o l)
    (hd : o d = .dir h) (hv : v < kernpage) (hout : ¬ old v) : seen m' d v = seen m d v := by
  refine ho.seen_congr hd hv (hs.kept v hout) ?_
  intro p hp
  refine hs.words p ?_ (frame_ne hd hp).2.2
  rcases hs.roles p with hrole | ⟨⟨v', hv', hframe⟩, -⟩
  · rw [hrole]
    simp [hp]
  · rw [hp] at hframe
    have heq : v = v' := by simpa using hframe
    exact absurd (heq ▸ hv') hout

/-- A page of the table `i` of a directory that was not there before and maps nothing. -/
def EmptyTable (m m' : PhysMem) (d p : ℕ) : Prop :=
  ∃ i < 1024, pteP (m.word d i) = false ∧ pteP (m'.word d i) = true ∧ pteAddr (m'.word d i) = p ∧
    ∀ j < 1024, pteP (m'.word p j) = false

theorem Undone.emptyTable {i : ℕ} (hu : Undone k d m o m' o' l') (ho : Owned k m o l)
    (hd : o d = .dir h) (hp : o p = .free) (ht : o' p = .table d i) : EmptyTable m m' d p := by
  obtain ⟨hi, -, hpde, haddr⟩ := hu.owned.tabled p d i ht
  have habsent : pteP (m.word d i) = false := by
    refine eq_false_of_ne_true fun hpresent => ?_
    have hrole := ho.tables d h i hd hi hpresent
    have hrole' := (hu.roles _ (by simp [hrole])).trans hrole
    rw [← (hu.owned.tabled _ d i hrole').2.2.2, haddr] at hrole
    simp [hp] at hrole
  refine ⟨i, hi, habsent, hpde, haddr, ?_⟩
  intro j hj
  refine eq_false_of_ne_true fun hpresent => ?_
  have hindex : (1024 * i + j) / 1024 = i := by omega
  have hoffset : (1024 * i + j) % 1024 = j := by omega
  have hpte : pteOf m' d (1024 * i + j) = some (m'.word p j) := by
    rw [pteOf_eq_some, hindex, hoffset, haddr]
    exact ⟨by omega, hpde, hpresent, rfl⟩
  rw [hu.ptes, pteOf_eq_some, hindex] at hpte
  simp [habsent] at hpte

/-- `allocuvm` rolls back, or adds exactly the pages that were asked for. -/
def AllocExact (k : KernelImage) (d oldsz newsz : ℕ) (m : PhysMem) : Prop :=
  ∃ r m', allocuvm k d oldsz newsz m = .ok r m' ∧
    (r = 0 → (∀ v < kernpage, seen m' d v = seen m d v) ∧
      ∀ p, IsFree m p → IsFree m' p ∨ EmptyTable m m' d p) ∧
    (r = newsz → oldsz < newsz →
      (∀ v < kernpage, ¬ (pgroundup oldsz ≤ v ∧ v < pgroundup newsz) →
        seen m' d v = seen m d v) ∧
      ∀ v, pgroundup oldsz ≤ v → v < pgroundup newsz →
        ∃ p, IsFree m p ∧ seen m' d v = some (entry p permWU, fun _ => 0))

theorem allocuvm_zero (k : KernelImage) (d oldsz : ℕ) (m : PhysMem) :
    allocuvm k d oldsz 0 m = .ok oldsz m := by
  unfold allocuvm
  rw [if_neg (by decide)]
  by_cases hpos : 0 < oldsz
  · rw [if_pos hpos]
    rfl
  · obtain rfl : oldsz = 0 := by omega
    rfl

/-- `allocuvm` adds zero pages up to the new size, or gives up and leaves the user's memory as it
was. -/
theorem allocuvm_rolls_back (ho : Owned k m o l) (hd : o d = .dir h)
    (husual : ∀ v < kernpage, pgroundup oldsz ≤ v → pteOf m d v = none) (newsz : ℕ) :
    AllocExact k d oldsz newsz m := by
  have hbase : kernbase = 2147483648 := rfl
  have hkern : kernpage = 524288 := rfl
  by_cases hzero : newsz = 0
  · subst newsz
    exact ⟨oldsz, m, allocuvm_zero k d oldsz m,
      fun _ => ⟨fun _ _ => rfl, fun p hp => Or.inl hp⟩, fun _ hlt => by omega⟩
  obtain ⟨r, m', hrun, o', l', hpost⟩ := (allocuvm_spec oldsz newsz ho hd husual).total
  refine ⟨r, m', hrun, ?_, ?_⟩
  · rintro rfl
    rcases hpost with ⟨-, -, rfl, rfl, rfl⟩ | ⟨-, -, hr, -⟩ | ⟨-, hu, -⟩
    · exact ⟨fun _ _ => rfl, fun p hp => Or.inl hp⟩
    · exact absurd hr.symm hzero
    · refine ⟨fun v hv => hu.seen ho hd hv, ?_⟩
      intro p hp
      rw [ho.isFree_iff] at hp
      rw [hu.owned.isFree_iff]
      refine (hu.taken p hp).imp_right ?_
      rintro ⟨i, ht⟩
      exact hu.emptyTable ho hd hp ht
  · rintro rfl hlt
    rcases hpost with ⟨hlt', -⟩ | ⟨-, hnew, -, hf⟩ | ⟨rfl, -⟩
    · omega
    · have hpages : pgroundup r ≤ kernpage := by
        rw [pgroundup]
        omega
      refine ⟨fun v hv hout => hf.seen_others ho hd hv hout, ?_⟩
      intro v hle hlt
      obtain ⟨w, hpte, hfree, hw, hpage⟩ := hf.added v hle hlt
      refine ⟨pteAddr w, ho.isFree_iff.mpr hfree, ?_⟩
      rw [seen_of_pteOf hpte, hpage, ← hw]
    · omega

theorem freerange_spec (first n : ℕ) (ho : Owned k m o l) (hother : ∀ i < n, o (first + i) = .other)
    (hlow : k.stop ≤ first) (hhigh : first + n ≤ phystop) :
    Ensures (freerange k first n) m (fun _ m' => ∃ o' l', Owned k m' o' l' ∧
      l'.length = l.length + n ∧ m'.refuse = m.refuse ∧
      ∀ q, ¬ (first ≤ q ∧ q < first + n) → o' q = o q ∧ m'.word q = m.word q) fun _ => False := by
  refine ensures_forM_range (fun i m' => ∃ o' l', Owned k m' o' l' ∧
      l'.length = l.length + i ∧ m'.refuse = m.refuse ∧
      ∀ q, ¬ (first ≤ q ∧ q < first + i) → o' q = o q ∧ m'.word q = m.word q) ?_ ?_
  · exact ⟨o, l, ho, rfl, rfl, fun _ _ => ⟨rfl, rfl⟩⟩
  · rintro i m₁ hi ⟨o₁, l₁, ho₁, hlength, hrefuse, hsame⟩
    have hrole : o₁ (first + i) = .other := (hsame _ (by omega)).1.trans (hother i hi)
    have husable : k.stop ≤ first + i ∧ first + i < phystop := by omega
    rw [kfree_ensures husable]
    refine ⟨_, _, ho₁.push (by simp [hrole, Role.Mapped]) (by simp [hrole]) husable,
      ?_, hrefuse, ?_⟩
    · rw [List.length_cons, hlength, Nat.add_assoc]
    · intro q hq
      have hne : q ≠ first + i := by omega
      rw [Function.update_of_ne hne, PhysMem.word_push_of_ne _ _ hne]
      exact hsame q (by omega)

def bare : PhysMem := ⟨fun _ _ => 0, none, 0, fun _ => false⟩

theorem owned_bare (k : KernelImage) (m : PhysMem) (hfree : m.freelist = none) :
    Owned k m (fun _ => .other) [] := by
  refine ⟨⟨?_, ?_, ?_, ?_, ?_⟩, hfree, List.nodup_nil, ?_, ?_⟩
  all_goals simp

def smallKernel : KernelImage := ⟨264, 300, by decide, by decide, by decide⟩

theorem exists_space {n : ℕ} (hpos : 0 < n) (hn : n ≤ 50000) : ∃ m o l d, Owned smallKernel m o l ∧
    o d = .dir .nobody ∧ (∀ v < kernpage, pteOf m d v = none) ∧ l.length = n ∧
    m.refuse = (fun _ => false) ∧
    (range 1024).filter (fun i => pteP (m.word d i) = true) =
      Finset.Ico 512 568 ∪ Finset.Ico 1016 1024 := by
  have hstop : smallKernel.stop = 300 := rfl
  have hphys : phystop = 57344 := rfl
  have hbare := owned_bare smallKernel bare rfl
  obtain ⟨-, m₁, -, o₁, l₁, ho₁, hlength, hrefuse, -⟩ :=
    (freerange_spec 300 (n + 65) hbare (fun _ _ => rfl) (by omega)
      (by omega)).total
  rw [List.length_nil, Nat.zero_add] at hlength
  obtain ⟨r, m₂, -, hpost⟩ := (setupkvm_spec ho₁).total
  cases r with
  | none =>
    obtain ⟨-, l₀, hstuck, hle⟩ := hpost
    rcases hstuck.cause with rfl | ⟨i, hi⟩
    · rw [List.length_nil] at hle
      omega
    · simp [hrefuse, bare] at hi
  | some d =>
    obtain ⟨o₂, l₂, hnew⟩ := hpost
    have hcount := hnew.count
    exact ⟨m₂, o₂, l₂, d, hnew.owned, hnew.dir, hnew.user, by omega,
      hnew.granted.1.trans hrefuse, hnew.tables⟩

def kinit1 (k : KernelImage) : Mem Unit := freerange k k.stop (1024 - k.stop)

def kinit2 (k : KernelImage) : Mem Unit := freerange k 1024 (phystop - 1024)

/-- What `main` does to the pages when there is one processor; the result is `kpgdir`. -/
def bootPages (k : KernelImage) : Mem (Option ℕ) := do
  kinit1 k
  let kpgdir ← setupkvm k
  kinit2 k
  return kpgdir

/-- When the kernel leaves 66 pages below 4 MB, all pages but those of its directory end up free. -/
theorem bootPages_frees (hnone : m.freelist = none) (hrefuse : m.refuse = fun _ => false)
    (hstop : k.stop + 65 < 1024) : ∃ d m' o' l', bootPages k m = .ok (some d) m' ∧
      Owned k m' o' l' ∧ o' d = .dir .nobody ∧ l'.length + 65 = phystop - k.stop := by
  have hphys : phystop = 57344 := rfl
  obtain ⟨_, m₁, hrun₁, o₁, l₁, ho₁, hlength₁, hrefuse₁, hsame₁⟩ :=
    (freerange_spec k.stop (1024 - k.stop) (owned_bare k m hnone) (fun _ _ => rfl) (by omega)
      (by omega)).total
  rw [List.length_nil] at hlength₁
  obtain ⟨r, m₂, hrun₂, hpost⟩ := (setupkvm_spec ho₁).total
  cases r with
  | none =>
    obtain ⟨-, l₀, hstuck, hle⟩ := hpost
    rcases hstuck.cause with rfl | ⟨i, hi⟩
    · rw [List.length_nil] at hle
      omega
    · simp [hrefuse₁, hrefuse] at hi
  | some d =>
    obtain ⟨o₂, l₂, hnew⟩ := hpost
    have hcount := hnew.count
    have hother : ∀ q, 1024 ≤ q → o₂ q = .other := by
      intro q hq
      have hq₁ := (hsame₁ q (by omega)).1
      rw [hnew.roles q (by simp [hq₁]), hq₁]
    have hlow : d < 1024 := by
      by_contra hge
      simpa [hnew.dir] using hother d (by omega)
    obtain ⟨n, hn⟩ : ∃ n, n = phystop - 1024 := ⟨_, rfl⟩
    obtain ⟨_, m₃, hrun₃, o₃, l₃, ho₃, hlength₃, -, hsame₃⟩ :=
      (freerange_spec 1024 n hnew.owned (fun i _ => hother _ (by omega)) (by omega)
        (by omega)).total
    refine ⟨d, m₃, o₃, l₃, ?_, ho₃, (hsame₃ d (by omega)).1.trans hnew.dir, by omega⟩
    rw [← kinit1] at hrun₁
    rw [hn, ← kinit2] at hrun₃
    simp only [bootPages, bind, EStateM.bind, hrun₁, hrun₂, hrun₃]
    rfl

theorem bootPages_frees_bare : ∃ d m' o' l', bootPages smallKernel bare = .ok (some d) m' ∧
    Owned smallKernel m' o' l' ∧ o' d = .dir .nobody ∧ l'.length + 65 = phystop - 300 :=
  bootPages_frees rfl rfl (by decide)

theorem Filled.tableCount {P : ℕ → ℕ → (ℕ → ℕ) → Prop} {a : ℕ}
    (hf : Filled k d P 0 a m o l m' o' l') (ho : Owned k m o l) (hd : o d = .dir h)
    (ha : a ≤ kernpage)
    (htables : (range 1024).filter (fun i => pteP (m.word d i) = true) =
      Finset.Ico 512 568 ∪ Finset.Ico 1016 1024) :
    (range 1024).filter (fun i => pteP (m'.word d i) = true) =
      range ((a + 1023) / 1024) ∪ (Finset.Ico 512 568 ∪ Finset.Ico 1016 1024) ∧
    l'.length + (a + 1023) / 1024 + a = l.length := by
  have hkern : kernpage = 524288 := rfl
  have hset : (range 1024).filter (fun i => pteP (m'.word d i) = true) =
      range ((a + 1023) / 1024) ∪ (Finset.Ico 512 568 ∪ Finset.Ico 1016 1024) := by
    rw [← htables]
    ext i
    simp only [mem_union, mem_filter, mem_range]
    constructor
    · rintro ⟨hi, hpresent⟩
      rcases hf.pdes i hi hpresent with hold | ⟨v, hv, hvi⟩
      · exact Or.inr ⟨hi, hold⟩
      · exact Or.inl (by omega)
    · rintro (hlt | ⟨hi, hold⟩)
      · obtain ⟨w, hpte, -⟩ := hf.added (1024 * i) (by omega) (by omega)
        have hpde := (pteOf_eq_some.mp hpte).2.1
        rw [Nat.mul_div_cancel_left i (by decide)] at hpde
        exact ⟨by omega, hpde⟩
      · have hrole := ho.tables d h i hd hi hold
        have hrole' := (hf.roles _ (by simp [hrole])).trans hrole
        exact ⟨hi, (hf.owned.tabled _ d i hrole').2.2.1⟩
  refine ⟨hset, ?_⟩
  have hdisjoint : Disjoint (range ((a + 1023) / 1024))
      (Finset.Ico 512 568 ∪ Finset.Ico 1016 1024) := by
    rw [disjoint_left]
    intro i hi
    rw [mem_range] at hi
    rw [mem_union, mem_Ico, mem_Ico]
    omega
  have hcount := hf.count
  rw [Vm.tableCount, Vm.tableCount, hset, htables, card_union_of_disjoint hdisjoint,
    card_range] at hcount
  omega

theorem exists_process (n sz : ℕ) (hpos : 0 < n) (hn : n ≤ 10000) (hsz : sz ≤ 2 ^ 26) :
    ∃ (s : Sys) (o : ℕ → Role) (l : List ℕ), Owned smallKernel s.mem o l ∧
      o (s.proc 0).pgdir = .dir .nobody ∧ (s.proc 0).sz = sz ∧
      (∀ v < kernpage, (pteOf s.mem (s.proc 0).pgdir v).isSome ↔ v < pgroundup sz) ∧
      l.length = n ∧ s.mem.refuse = fun _ => false := by
  have hbase : kernbase = 2147483648 := rfl
  have hkern : kernpage = 524288 := rfl
  have hnone : pgroundup 0 = 0 := rfl
  have hpages : pgroundup sz ≤ 16384 := by
    rw [pgroundup]
    omega
  obtain ⟨m, o, l, d, ho, hd, huser, hlength, hrefuse, htables⟩ :=
    exists_space (n := n + pgroundup sz + (pgroundup sz + 1023) / 1024) (by omega) (by omega)
  obtain ⟨r, m', -, o', l', hpost⟩ := (allocuvm_spec 0 sz ho hd fun v hv _ => huser v hv).total
  rw [hnone] at hpost
  rcases hpost with ⟨hlt, -⟩ | ⟨-, -, -, hf⟩ | ⟨-, -, hlarge | hran⟩
  · omega
  · have hcount := (hf.tableCount ho hd (by omega) htables).2
    refine ⟨⟨m', fun _ => ⟨.active, 0, d, sz⟩⟩, o', l', hf.owned, hf.dir hd, rfl,
      ?_, by omega, hf.granted.1.trans hrefuse⟩
    intro v hv
    by_cases hin : v < pgroundup sz
    · obtain ⟨w, hpte, -⟩ := hf.added v (Nat.zero_le v) hin
      simp [hpte, hin]
    · rw [hf.others v (by omega), huser v hv]
      simp [hin]
  · omega
  · obtain ⟨a, m₁, o₁, l₁, l₀, -, ha, hf, hstuck, hle⟩ := hran
    have hcount := (hf.tableCount ho hd (by omega) htables).2
    rcases hstuck.cause with rfl | ⟨i, hi⟩
    · rw [List.length_nil] at hle
      omega
    · simp [hrefuse] at hi

theorem allocuvm_rolls_back_twoPages : ∃ m d, AllocExact smallKernel d 0 8192 m := by
  obtain ⟨m, o, l, d, ho, hd, huser, -⟩ := exists_space (n := 10) (by decide) (by decide)
  exact ⟨m, d, allocuvm_rolls_back ho hd (fun v hv _ => huser v hv) 8192⟩

/-! ## `growproc` -/

theorem ensures_onMem {α : Type} {x : Mem α} {s : Sys} {Q : α → Sys → Prop} {E : Sys → Prop} :
    Ensures (onMem x) s Q E ↔
      Ensures x s.mem (fun a m => Q a { s with mem := m }) fun m => E { s with mem := m } := by
  simp only [onMem, Ensures]
  cases x s.mem with
  | ok a m => rfl
  | error e m => rfl

/-- The process has its new size, or everything is as before. -/
def GrowPost (cur : Fin 64) (n : ℤ) (s : Sys) (r : ℤ) (s' : Sys) : Prop :=
  let old := s.proc cur
  let new := s'.proc cur
  new.pgdir = old.pgdir ∧
    ((r = 0 ∧ (new.sz : ℤ) = old.sz + n ∧
      (∀ v < kernpage, (seen s'.mem old.pgdir v).isSome ↔ v < pgroundup new.sz) ∧
      (∀ v, pgroundup old.sz ≤ v → v < pgroundup new.sz →
        ∃ w, seen s'.mem old.pgdir v = some (w, fun _ => 0)) ∧
      ∀ v < pgroundup old.sz, v < pgroundup new.sz →
        seen s'.mem old.pgdir v = seen s.mem old.pgdir v) ∨
    (r = -1 ∧ new.sz = old.sz ∧
      ∀ v < kernpage, seen s'.mem old.pgdir v = seen s.mem old.pgdir v))

@[simp] theorem Sys.setProc_self (s : Sys) (p : Fin 64) (slot : Slot) :
    (s.setProc p slot).proc p = slot := by
  simp [Sys.setProc]

@[simp] theorem Sys.setProc_mem (s : Sys) (p : Fin 64) (slot : Slot) :
    (s.setProc p slot).mem = s.mem := rfl

def GrowExact (k : KernelImage) (cur : Fin 64) (n : ℤ) (s : Sys) : Prop :=
  ∃ r s', growproc k cur n s = .ok r s' ∧ GrowPost cur n s r s'

section GrowProc

variable {s : Sys} {cur : Fin 64} {n : ℤ}

theorem isSome_seen (m : PhysMem) (d v : ℕ) : (seen m d v).isSome = (pteOf m d v).isSome :=
  isSome_map ..

theorem growproc_up (ho : Owned k s.mem o l) (hd : o (s.proc cur).pgdir = .dir h)
    (hpresent : ∀ v < kernpage, (pteOf s.mem (s.proc cur).pgdir v).isSome ↔
      v < pgroundup (s.proc cur).sz) (hsz : (s.proc cur).sz < kernbase) (hpos : 0 < n)
    (hn : n < 2 ^ 31) :
    Ensures (growproc k cur n) s (GrowPost cur n s) fun _ => False := by
  have hbase : kernbase = 2147483648 := rfl
  have hkern : kernpage = 524288 := rfl
  obtain ⟨j, rfl⟩ := Int.eq_ofNat_of_zero_le hpos.le
  simp only [growproc, ensures_bind, ensures_get]
  generalize hslot : s.proc cur = slot at hd hpresent hsz
  have hnew : ((slot.sz + j : ℤ) % 2 ^ 32).toNat = slot.sz + j := by omega
  have husual : ∀ v < kernpage, pgroundup slot.sz ≤ v → pteOf s.mem slot.pgdir v = none := by
    intro v hv hle
    rw [← not_isSome_iff_eq_none, hpresent v hv]
    omega
  rw [if_pos hpos, hnew]
  simp only [ensures_bind, ensures_onMem]
  refine (allocuvm_spec slot.sz (slot.sz + j) ho hd husual).post ?_
  rintro r m' ⟨o', l', ⟨hlt, -⟩ | ⟨-, hlt, rfl, hf⟩ | ⟨rfl, hu, -⟩⟩
  · omega
  · rw [if_neg (by omega)]
    simp only [ensures_bind, ensures_modify, ensures_pure, GrowPost, Sys.setProc_self,
      Sys.setProc_mem, hslot]
    have hpages : pgroundup (slot.sz + j) ≤ kernpage := by
      rw [pgroundup]
      omega
    refine ⟨trivial, Or.inl ⟨trivial, by omega, ?_, ?_, ?_⟩⟩
    · intro v hv
      rw [isSome_seen]
      by_cases hin : pgroundup slot.sz ≤ v ∧ v < pgroundup (slot.sz + j)
      · obtain ⟨w, hpte, -⟩ := hf.added v hin.1 hin.2
        simp [hpte, hin.2]
      · rw [hf.others v hin, hpresent v hv]
        simp only [pgroundup] at hin ⊢
        omega
    · intro v hle hlt
      obtain ⟨w, hpte, -, hzero⟩ := hf.added v hle hlt
      exact ⟨w, by rw [seen_of_pteOf hpte, hzero.2]⟩
    · intro v hlow hhigh
      exact hf.seen_others ho hd (by omega) (by omega)
  · rw [if_pos rfl, ensures_pure]
    simp only [GrowPost, hslot]
    exact ⟨trivial, Or.inr ⟨trivial, trivial, fun v hv => hu.seen ho hd hv⟩⟩

theorem growproc_down (ho : Owned k s.mem o l) (hd : o (s.proc cur).pgdir = .dir h)
    (hsz : (s.proc cur).sz < kernbase) (hneg : n < 0) {newsz : ℕ}
    (hnew : (((s.proc cur).sz + n) % 2 ^ 32).toNat = newsz) :
    Ensures (growproc k cur n) s (fun r s' =>
      (∃ o' l', Shrunk k (s.proc cur).pgdir
        (fun v => pgroundup newsz ≤ v ∧ v < pgroundup (s.proc cur).sz) s.mem o s'.mem o' l') ∧
      if min (s.proc cur).sz newsz = 0 then r = -1 ∧ s'.proc = s.proc
      else r = 0 ∧ s'.proc cur = { s.proc cur with sz := min (s.proc cur).sz newsz })
      fun _ => False := by
  simp only [growproc, ensures_bind, ensures_get]
  generalize hslot : s.proc cur = slot at hd hsz hnew
  rw [if_neg (by omega), if_pos hneg, hnew]
  simp only [ensures_bind, ensures_onMem]
  refine (deallocuvm_spec slot.sz newsz ho hd hsz.le).post ?_
  rintro r m' ⟨rfl, hs⟩
  by_cases hzero : min slot.sz newsz = 0
  · simp only [if_pos hzero, ensures_pure]
    exact ⟨hs, trivial, trivial⟩
  · simp only [if_neg hzero, ensures_bind, ensures_modify, ensures_pure, Sys.setProc_self]
    exact ⟨hs, trivial, trivial⟩

/-- `growproc` does what it says, or fails and changes nothing, unless it is to take away all that
there is or more. -/
theorem growproc_exact_iff (ho : Owned k s.mem o l) (hd : o (s.proc cur).pgdir = .dir h)
    (hpresent : ∀ v < kernpage, (pteOf s.mem (s.proc cur).pgdir v).isSome ↔
      v < pgroundup (s.proc cur).sz) (hsz : (s.proc cur).sz < kernbase) (hlow : -2 ^ 31 ≤ n)
    (hhigh : n < 2 ^ 31) :
    GrowExact k cur n s ↔ 0 ≤ n ∨ 0 < (s.proc cur).sz + n ∨ (s.proc cur).sz = 0 := by
  have hbase : kernbase = 2147483648 := rfl
  have hkern : kernpage = 524288 := rfl
  by_cases hneg : n < 0
  · obtain ⟨r, s', hrun, ⟨o', l', hs⟩, hresult⟩ := (growproc_down ho hd hsz hneg rfl).total
    generalize hnew : (((s.proc cur).sz + n) % 2 ^ 32).toNat = newsz at hs hresult
    have hexact : GrowExact k cur n s ↔ GrowPost cur n s r s' := by
      refine ⟨?_, fun hpost => ⟨r, s', hrun, hpost⟩⟩
      rintro ⟨r', s'', hrun', hpost⟩
      rw [hrun] at hrun'
      simp only [EStateM.Result.ok.injEq] at hrun'
      obtain ⟨rfl, rfl⟩ := hrun'
      exact hpost
    rw [hexact, GrowPost]
    generalize hslot : s.proc cur = slot at hd hpresent hsz hnew hs hresult
    by_cases hpos : 0 < slot.sz + n
    · have hsize : (newsz : ℤ) = slot.sz + n := by omega
      rw [if_neg (by omega), min_eq_right (by omega)] at hresult
      obtain ⟨rfl, hproc⟩ := hresult
      rw [hproc]
      have hpages : pgroundup slot.sz ≤ kernpage := by
        rw [pgroundup]
        omega
      refine ⟨fun _ => Or.inr (Or.inl hpos), fun _ => ⟨rfl, Or.inl ⟨rfl, hsize, ?_, ?_, ?_⟩⟩⟩
      · intro v hv
        rw [isSome_seen]
        by_cases hin : pgroundup newsz ≤ v ∧ v < pgroundup slot.sz
        · simp [hs.gone v hin, hin.1]
        · rw [hs.kept v hin, hpresent v hv]
          simp only [pgroundup] at hin ⊢
          omega
      · intro v hle hlt
        simp only [pgroundup] at hle hlt
        omega
      · intro v hv hlt
        exact hs.seen_kept ho hd (by omega) fun hin => absurd hin.1 (not_le.mpr hlt)
    · by_cases hzero : slot.sz = 0
      · rw [if_pos (by omega)] at hresult
        obtain ⟨rfl, hproc⟩ := hresult
        rw [hproc, hslot]
        refine ⟨fun _ => Or.inr (Or.inr hzero), fun _ => ⟨rfl, Or.inr ⟨rfl, rfl, ?_⟩⟩⟩
        intro v hv
        refine hs.seen_kept ho hd hv ?_
        simp only [hzero, pgroundup]
        omega
      · -- the size is not what was asked for, or all pages are gone and the answer is -1
        refine ⟨fun hpost => ?_, by omega⟩
        by_cases hnone : newsz = 0
        · rw [if_pos (by omega)] at hresult
          obtain ⟨rfl, -⟩ := hresult
          rcases hpost.2 with ⟨hr, -⟩ | ⟨-, -, hsame⟩
          · omega
          · have hlow : 0 < pgroundup slot.sz := by
              rw [pgroundup]
              omega
            have hfirst := hsame 0 (by omega)
            rw [seen_eq_none.mpr (hs.gone 0 ⟨by simp [hnone, pgroundup], hlow⟩), eq_comm,
              seen_eq_none] at hfirst
            have hsome := (hpresent 0 (by omega)).mpr hlow
            simp [hfirst] at hsome
        · rw [if_neg (by omega), min_eq_left (by omega)] at hresult
          obtain ⟨rfl, hproc⟩ := hresult
          rw [hproc] at hpost
          rcases hpost.2 with ⟨-, hsize, -⟩ | ⟨hr, -⟩
          · simp only at hsize
            omega
          · omega
  · rw [not_lt] at hneg
    have hpos : 0 ≤ n ∨ 0 < (s.proc cur).sz + n ∨ (s.proc cur).sz = 0 := Or.inl hneg
    refine ⟨fun _ => hpos, fun _ => ?_⟩
    by_cases hzero : n = 0
    · subst n
      refine ⟨0, s, rfl, rfl, Or.inl ⟨rfl, (add_zero _).symm, ?_, ?_, fun _ _ _ => rfl⟩⟩
      · intro v hv
        rw [isSome_seen]
        exact hpresent v hv
      · intro v hle hlt
        omega
    · exact (growproc_up ho hd hpresent hsz (by omega) hhigh).total

theorem growproc_exact_iff_onePage : ∃ s : Sys, (s.proc 0).sz = 4096 ∧
    GrowExact smallKernel 0 (-4000) s := by
  obtain ⟨s, o, l, ho, hd, hsz, hpresent, -⟩ :=
    exists_process 10 4096 (by decide) (by decide) (by decide)
  rw [← hsz] at hpresent
  refine ⟨s, hsz, (growproc_exact_iff ho hd hpresent (by rw [hsz]; decide) (by decide)
    (by decide)).mpr (Or.inr (Or.inl ?_))⟩
  rw [hsz]
  decide

/-- A process of one page asks for two pages less, and is told that it got them. -/
theorem growproc_below_zero : ∃ (s : Sys) (o : ℕ → Role) (l : List ℕ),
    Owned smallKernel s.mem o l ∧ o (s.proc 0).pgdir = .dir .nobody ∧ (s.proc 0).sz = 4096 ∧
    (∀ v < kernpage, (pteOf s.mem (s.proc 0).pgdir v).isSome ↔ v < pgroundup 4096) ∧
    ∃ s', growproc smallKernel 0 (-8192) s = .ok 0 s' ∧ (s'.proc 0).sz = 4096 := by
  obtain ⟨s, o, l, ho, hd, hsz, hpresent, -⟩ :=
    exists_process 10 4096 (by decide) (by decide) (by decide)
  refine ⟨s, o, l, ho, hd, hsz, hpresent, ?_⟩
  have hnew : (((s.proc 0).sz + (-8192 : ℤ)) % 2 ^ 32).toNat = 4294963200 := by
    rw [hsz]
    rfl
  obtain ⟨r, s', hrun, -, hresult⟩ :=
    (growproc_down ho hd (by rw [hsz]; decide) (by decide) hnew).total
  rw [hsz, if_neg (by decide)] at hresult
  obtain ⟨rfl, hproc⟩ := hresult
  exact ⟨s', hrun, by rw [hproc]; rfl⟩

end GrowProc

end Xv6Kernel.Vm
