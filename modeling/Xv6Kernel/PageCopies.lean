import Xv6Kernel.UserPages

/-!
# Copies of address spaces

`copyuvm` and `fork`.  A copy has the entries and the contents of the original in frames of
its own, so what is written through one of the two is not seen through the other.  When a
request for a page is refused on the way, `freevm` finds the pages that are linked into the
new directory; the frame for which there was no table is linked nowhere.
-/

namespace Xv6Kernel.Vm

open TraceExecution StateHoare Function List Finset

variable {k : KernelImage} {m m' m'' : PhysMem} {o o' o'' : ℕ → Role} {l l' l'' : List ℕ}
  {c d p v sz n : ℕ} {h h' : Holder} {s : Sys} {cur : Fin 64}

def Grants (m : PhysMem) (n : ℕ) : Prop :=
  ∀ j < n, m.refuse (m.asked + j) = false ∧ (freeAt m j).isSome

def FirstRefused (m : PhysMem) (n : ℕ) : Prop := Grants m n ∧ ¬ Grants m (n + 1)

theorem Grants.mono {n' : ℕ} (hg : Grants m n) (hle : n' ≤ n) : Grants m n' :=
  fun j hj => hg j (by omega)

theorem FirstRefused.unique {n' : ℕ} (hn : FirstRefused m n) (hn' : FirstRefused m n') :
    n = n' := by
  by_contra hne
  rcases Nat.lt_or_gt_of_ne hne with hlt | hgt
  · exact hn.2 (hn'.1.mono hlt)
  · exact hn'.2 (hn.1.mono hgt)

theorem Owned.grants_iff (ho : Owned k m o l) :
    Grants m n ↔ n ≤ l.length ∧ ∀ j < n, m.refuse (m.asked + j) = false := by
  simp only [Grants, ho.freeAt]
  constructor
  · intro hg
    refine ⟨?_, fun j hj => (hg j hj).1⟩
    by_contra hlt
    simpa using (hg l.length (by omega)).2
  · rintro ⟨hle, hall⟩ j hj
    refine ⟨hall j hj, ?_⟩
    rw [getElem?_eq_getElem (by omega), Option.isSome_some]

theorem Granted.grants (hg : Granted m l m' l') (ho : Owned k m o l) :
    Grants m (l.length - l'.length) := by
  obtain ⟨-, n, hle, rfl, -, hall⟩ := hg
  rw [ho.grants_iff, length_drop]
  exact ⟨by omega, fun j hj => hall j (by omega)⟩

theorem Stuck.firstRefused (hs : Stuck m l l') (ho : Owned k m o l) :
    FirstRefused m (l.length - l'.length) := by
  obtain ⟨n, hle, rfl, hall, hlast⟩ := hs
  have heq : l.length - (l.drop n).length = n := by
    rw [length_drop]
    omega
  rw [heq, FirstRefused, ho.grants_iff, ho.grants_iff]
  refine ⟨⟨hle, hall⟩, ?_⟩
  rintro ⟨hlt, hall'⟩
  rcases hlast with hnil | hrefused
  · have hlength := congrArg length hnil
    rw [length_drop, length_nil] at hlength
    omega
  · rw [hall' n (by omega)] at hrefused
    contradiction

theorem Granted.grants_tail (hg : Granted m (p :: l) m' l) (ho : Owned k m o (p :: l))
    (ho' : Owned k m' o' l) : Grants m (n + 1) ↔ Grants m' n := by
  obtain ⟨hrefuse, i, hle, hdrop, hasked, hall⟩ := hg
  have hlength := congrArg length hdrop
  rw [length_drop, length_cons] at hlength
  rw [length_cons] at hle
  obtain rfl : i = 1 := by omega
  rw [ho.grants_iff, ho'.grants_iff, hrefuse, hasked, length_cons]
  constructor
  · rintro ⟨hlt, hfirst⟩
    refine ⟨by omega, fun j hj => ?_⟩
    rw [Nat.add_assoc]
    exact hfirst (1 + j) (by omega)
  · rintro ⟨hlt, hrest⟩
    refine ⟨by omega, fun j hj => ?_⟩
    cases j with
    | zero => exact hall 0 (by omega)
    | succ j =>
      have hnext := hrest j (by omega)
      rwa [Nat.add_assoc, Nat.add_comm 1 j] at hnext

def copied (m : PhysMem) (c v w : ℕ) (page : ℕ → ℕ) : Prop :=
  ∃ w₀, pteOf m c v = some w₀ ∧ pteFlags w = pteFlags w₀ ∧ page = m.word (pteAddr w₀)

theorem pteFlags_entry {w : ℕ} (hw : pteP w = true) :
    pteFlags (entry p (pteFlags w)) = pteFlags w := by
  have hodd : pteFlags w % 2 = 1 := by
    have hbit : w % 2 = 1 := of_decide_eq_true hw
    rw [pteFlags]
    omega
  have hlt : pteFlags w < 4096 := Nat.mod_lt _ (by decide)
  have hor : pteFlags w ||| 1 = pteFlags w := by
    refine Nat.eq_of_testBit_eq fun i => ?_
    rw [Nat.testBit_or]
    cases i with
    | zero => simp [hodd]
    | succ i => simp [Nat.testBit_succ]
  rw [entry, hor]
  generalize pteFlags w = flags at hlt
  rw [pteFlags]
  omega

/-- The loop has stopped at the page `a` because there was no frame for it, or because there
was no table for the frame. -/
def CopyStopped (k : KernelImage) (c d last : ℕ) (m : PhysMem) (o : ℕ → Role) (l : List ℕ)
    (m' : PhysMem) : Prop :=
  ∃ a m₁ o₁ l₁, a < last ∧ Filled k d (copied m c) 0 a m o l m₁ o₁ l₁ ∧
    ((m'.word = m₁.word ∧ Owned k m' o₁ l₁ ∧ Stuck m l l₁) ∨
      ∃ p rest content, l₁ = p :: rest ∧ m'.word = Function.update m₁.word p content ∧
        Owned k m' (Function.update o₁ p .held) rest ∧ Stuck m l rest ∧
        pteP (m₁.word d (a / 1024)) = false)

theorem copyLoop_spec {i last : ℕ} (ho : Owned k m o l) (hd : o d = .dir h)
    (hc : o c = .dir h') (hcd : c ≠ d) (hlast : last = i + n) (hle : last ≤ kernpage)
    (hpresent : ∀ v < last, (pteOf m c v).isSome) (habsent : ∀ v < kernpage, pteOf m d v = none)
    (hf : Filled k d (copied m c) 0 i m o l m' o' l') :
    Ensures (copyLoop c d n i) m' (fun r m'' =>
      if r then ∃ o'' l'', Filled k d (copied m c) 0 last m o l m'' o'' l''
      else CopyStopped k c d last m o l m'') fun _ => False := by
  induction n generalizing i m' o' l' with
  | zero =>
    simp only [copyLoop, ensures_pure, if_true]
    refine ⟨o', l', ?_⟩
    rwa [hlast, Nat.add_zero]
  | succ n ih =>
    obtain ⟨w, hw⟩ := Option.isSome_iff_exists.mp (hpresent i (by omega))
    have hframe := ho.frame_of_pte hc (by omega) hw
    have hcontent : m'.word (pteAddr w) = m.word (pteAddr w) := by
      refine hf.words _ (by simp [hframe]) ?_ ?_
      · intro heq
        simp [heq, hd] at hframe
      · simp [hframe]
    have hpte : pteOf m' c i = some w := by
      rw [hf.pteOf_other ho hd hc hcd]
      exact hw
    obtain ⟨hwalk, hword⟩ := walk_of_pteOf hpte
    have hwp := (pteOf_eq_some.mp hpte).2.2.1
    simp only [copyLoop, ensures_bind, walkpgdir_ensures, hwalk, ensures_get, hword]
    rw [if_pos hwp]
    simp only [ensures_bind]
    refine (kalloc_spec hf.owned).post ?_
    rintro r m₁ ⟨hword₁, hresult⟩
    cases r with
    | none =>
      simp only [ensures_pure, Bool.false_eq_true, if_false]
      exact ⟨i, m', o', l', by omega, hf, Or.inl ⟨hword₁, hresult.1, hf.granted.stuck hresult.2⟩⟩
    | some p =>
      obtain ⟨rest, rfl, ho₁, hgranted⟩ := hresult
      simp only [ensures_bind, ensures_modify]
      refine (hf.page hd (by omega) (Nat.zero_le i) (habsent i (by omega)) hword₁ ho₁ hgranted
        (Nat.mod_lt _ (by decide)) ⟨w, hw, pteFlags_entry hwp, ?_⟩).post ?_
      · rw [hword₁]
        exact hcontent
      · intro r m₂ hresult
        cases r with
        | false =>
          obtain ⟨hword₂, ho₂, hstuck, hpde⟩ := hresult
          simp only [Bool.false_eq_true, if_false, ensures_pure]
          exact ⟨i, m', o', p :: rest, by omega, hf,
            Or.inr ⟨p, rest, _, rfl, hword₂, ho₂, hstuck, hpde⟩⟩
        | true =>
          obtain ⟨o₂, l₂, hf₂⟩ := hresult
          simp only [if_true]
          exact ih (by omega) hf₂

theorem Owned.present_le (ho : Owned k m o l) (hc : o c = .dir h)
    (hpresent : ∀ v < n, (pteOf m c v).isSome) : n ≤ kernpage := by
  by_contra hlt
  have hframe : ∀ v < kernpage, o (pteAddr ((pteOf m c v).getD 0)) = .frame c v := by
    intro v hv
    obtain ⟨w, hw⟩ := Option.isSome_iff_exists.mp (hpresent v (by omega))
    rw [hw, Option.getD_some]
    exact ho.frame_of_pte hc hv hw
  have hcard := card_le_card_of_injOn (s := range kernpage) (t := range phystop)
    (fun v => pteAddr ((pteOf m c v).getD 0)) ?_ ?_
  · rw [card_range, card_range] at hcard
    exact absurd hcard (by decide)
  · intro v hv
    rw [mem_coe, Finset.mem_range] at hv ⊢
    exact (ho.usable _ (by simp [hframe v hv])).2
  · intro v hv v' hv' heq
    rw [mem_coe, Finset.mem_range] at hv hv'
    have hsame := hframe v hv
    simp only at heq
    rw [heq, hframe v' hv'] at hsame
    simpa using hsame.symm

theorem PartOf.ne_free (hp : PartOf o c p) (hc : o c = .dir h) : o p ≠ .free := by
  rcases hp with rfl | ⟨i, hp⟩ | ⟨v, hp⟩
  · simp [hc]
  · simp [hp]
  · simp [hp]

theorem PartOf.dir_unique (hp : PartOf o c p) (hp' : PartOf o d p) (hc : o c = .dir h)
    (hd : o d = .dir h') : c = d := by
  rcases hp with rfl | ⟨i, hp⟩ | ⟨v, hp⟩ <;> rcases hp' with rfl | ⟨j, hp'⟩ | ⟨v', hp'⟩ <;> simp_all

theorem Owned.seen_of_part (ho : Owned k m o l) (hc : o c = .dir h)
    (hword : ∀ p, PartOf o c p → m'.word p = m.word p) :
    pteOf m' c = pteOf m c ∧ ∀ v < kernpage, seen m' c v = seen m c v := by
  have hptes : pteOf m' c = pteOf m c := by
    refine ho.pteOf_congr hc ?_
    rintro q (rfl | htable)
    · exact hword q (.inl rfl)
    · exact hword q (.inr (.inl htable))
  refine ⟨hptes, fun v hv => ho.seen_congr hc hv (congrFun hptes v) ?_⟩
  exact fun p hp => hword p (.inr (.inr ⟨v, hp⟩))

theorem Owned.seen_of_words (ho : Owned k m o l) (hc : o c = .dir h)
    (hword : ∀ p, o p ≠ .free → m'.word p = m.word p) :
    pteOf m' c = pteOf m c ∧ ∀ v < kernpage, seen m' c v = seen m c v := by
  exact ho.seen_of_part hc fun p hp => hword p (hp.ne_free hc)

/-- A page of the free list is in use nowhere; all else is as before. -/
def Lost (k : KernelImage) (m : PhysMem) (o : ℕ → Role) (m' : PhysMem) : Prop :=
  ∃ p content, o p = .free ∧ Restored k (m.fill p content) (Function.update o p .held) m'

/-- The requests of `copyuvm`: a directory, the kernel's tables, frames and their tables. -/
def copyRequests (pages : ℕ) : ℕ := 65 + pages + (pages + 1023) / 1024

/-- The address space `d` is a copy of the first pages of `c`. -/
structure Copy (k : KernelImage) (c d pages : ℕ) (m : PhysMem) (o : ℕ → Role) (l : List ℕ)
    (m' : PhysMem) (o' : ℕ → Role) (l' : List ℕ) : Prop extends Fresh k d m o m' o' l' where
  granted : Granted m l m' l'
  count : l'.length + copyRequests pages = l.length
  below : ∀ v < pages, ∃ w, pteOf m' d v = some w ∧ copied m c v w (m'.word (pteAddr w))
  above : ∀ v < kernpage, pages ≤ v → pteOf m' d v = none

theorem Filled.first_of_table {P : ℕ → ℕ → (ℕ → ℕ) → Prop} {a : ℕ}
    (hf : Filled k d P 0 a m o l m' o' l') (habsent : pteP (m'.word d (a / 1024)) = false) :
    a % 1024 = 0 := by
  by_contra hne
  obtain ⟨w, hpte, -⟩ := hf.added (a - 1) (Nat.zero_le _) (by omega)
  have hpde := (pteOf_eq_some.mp hpte).2.1
  rw [show (a - 1) / 1024 = a / 1024 by omega, habsent] at hpde
  contradiction

theorem copyuvm_spec (ho : Owned k m o l) (hc : o c = .dir h)
    (hpresent : ∀ v < pgroundup sz, (pteOf m c v).isSome) :
    Ensures (copyuvm k c sz) m (fun r m' =>
      match r with
      | none => ∃ n ≤ copyRequests (pgroundup sz), FirstRefused m n ∧
          ((Restored k m o m' ∧ ∀ q, n ≠ 66 + 1025 * q) ∨
            (Lost k m o m' ∧ ∃ q, 1024 * q < pgroundup sz ∧ n = 66 + 1025 * q))
      | some d => ∃ o' l', Copy k c d (pgroundup sz) m o l m' o' l') fun _ => False := by
  have hle := ho.present_le hc hpresent
  generalize hpages : pgroundup sz = pages at hpresent hle
  simp only [copyuvm, ensures_bind, hpages]
  refine (setupkvm_spec ho).post ?_
  intro r m₁ hresult
  cases r with
  | none =>
    obtain ⟨hrestored, l₀, hstuck, hlength⟩ := hresult
    simp only [ensures_pure]
    refine ⟨_, ?_, hstuck.firstRefused ho, Or.inl ⟨hrestored, fun q => by omega⟩⟩
    rw [copyRequests]
    omega
  | some d =>
    obtain ⟨o₁, l₁, hnew⟩ := hresult
    have hcd : c ≠ d := by
      rintro rfl
      simp [hnew.free] at hc
    have hc₁ : o₁ c = .dir h := (hnew.roles c (by simp [hc])).trans hc
    have hptes := (ho.seen_of_words hc hnew.words).1
    simp only [ensures_bind]
    refine (copyLoop_spec hnew.owned hnew.dir hc₁ hcd (by omega) hle (by rwa [hptes]) hnew.user
      (Filled.start hnew.owned 0)).post ?_
    intro r m₂ hresult
    cases r with
    | true =>
      obtain ⟨o₂, l₂, hf⟩ := hresult
      simp only [if_true, ensures_pure]
      refine ⟨o₂, l₂, hnew.toFresh.grown ho hf.toGrown, hnew.granted.trans hf.granted, ?_, ?_, ?_⟩
      · have hcount := (hf.tableCount hnew.owned hnew.dir hle hnew.tables).2
        have hcount₁ := hnew.count
        rw [copyRequests]
        omega
      · intro v hv
        obtain ⟨w, hpte, -, w₀, hw₀, hflags, hpage⟩ := hf.added v (Nat.zero_le v) hv
        rw [hptes] at hw₀
        refine ⟨w, hpte, w₀, hw₀, hflags, ?_⟩
        rw [hpage]
        exact hnew.words _ (by simp [ho.frame_of_pte hc (by omega) hw₀])
      · intro v hv hge
        rw [hf.others v (by omega)]
        exact hnew.user v hv
    | false =>
      obtain ⟨a, m₃, o₃, l₃, ha, hf, hcase⟩ := hresult
      have hfresh := hnew.toFresh.grown ho hf.toGrown
      have hcount := (hf.tableCount hnew.owned hnew.dir (by omega) hnew.tables).2
      have hcount₁ := hnew.count
      simp only [Bool.false_eq_true, if_false, ensures_bind, ensures_pure]
      rcases hcase with ⟨hword, ho₂, hstuck⟩ | ⟨p, rest, content, rfl, hword, ho₂, hstuck, hpde⟩
      · have hfresh₂ : Fresh k d m o m₂ o₃ l₃ :=
          { hfresh with
            owned := ho₂
            words := fun p hp => (congrFun hword p).trans (hfresh.words p hp) }
        refine (freevm_spec ho₂ hfresh₂.dir).post ?_
        rintro - m₄ ⟨o₄, l₄, hfreed⟩
        refine ⟨_, ?_, (hnew.granted.stuck hstuck).firstRefused ho,
          Or.inl ⟨hfresh₂.freed ho.toFits hfreed, ?_⟩⟩
        · rw [copyRequests]
          omega
        · intro q
          omega
      · obtain ⟨hfree, hfresh₂⟩ := hfresh.leak hword ho₂
        refine (freevm_spec ho₂ hfresh₂.dir).post ?_
        rintro - m₄ ⟨o₄, l₄, hfreed⟩
        have hfits : Fits (m.fill p content) (update o p .held) := by
          refine ho.toFits.retag (by simp [hfree, Role.Mapped]) (by simp [Role.Mapped]) ?_
          intro q hq
          simp [hq]
        have hfirst := hf.first_of_table hpde
        rw [length_cons] at hcount
        refine ⟨_, ?_, (hnew.granted.stuck hstuck).firstRefused ho,
          Or.inr ⟨⟨p, content, hfree, hfresh₂.freed hfits hfreed⟩, a / 1024, ?_, ?_⟩⟩
        · rw [copyRequests]
          omega
        · omega
        · omega

/-! ## What a failed copy leaves -/

def CopyClean (k : KernelImage) (c sz : ℕ) (m : PhysMem) : Prop :=
  ∀ m', copyuvm k c sz m = .ok none m' → (∀ p, IsFree m' p ↔ IsFree m p) ∧
    pteOf m' c = pteOf m c ∧ ∀ v < kernpage, seen m' c v = seen m c v

def ForkClean (k : KernelImage) (cur : Fin 64) (s : Sys) : Prop :=
  ∀ s', fork k cur s = .ok none s' → ∀ p, IsFree s'.mem p ↔ IsFree s.mem p

theorem copyClean_iff (ho : Owned k m o l) (hc : o c = .dir h)
    (hpresent : ∀ v < pgroundup sz, (pteOf m c v).isSome) :
    CopyClean k c sz m ↔ ∀ q, 1024 * q < pgroundup sz → ¬ FirstRefused m (66 + 1025 * q) := by
  obtain ⟨r, m', hrun, hresult⟩ := (copyuvm_spec ho hc hpresent).total
  constructor
  · intro hclean q hq hrefused
    cases r with
    | none =>
      obtain ⟨n, -, hn, ⟨-, hne⟩ | ⟨⟨p, content, hfree, l', ho', -⟩, -⟩⟩ := hresult
      · exact hne q (hn.unique hrefused)
      · have hsame := (hclean m' hrun).1 p
        rw [ho.isFree_iff, ho'.isFree_iff] at hsame
        simp [hfree] at hsame
    | some d =>
      obtain ⟨o', l', hcopy⟩ := hresult
      have hcount := hcopy.count
      refine hrefused.2 ((hcopy.granted.grants ho).mono ?_)
      rw [copyRequests] at hcount
      omega
  · intro hcond m'' hrun'
    rw [hrun] at hrun'
    simp only [EStateM.Result.ok.injEq] at hrun'
    obtain ⟨rfl, rfl⟩ := hrun'
    obtain ⟨n, -, hn, ⟨⟨l', ho', hword⟩, -⟩ | ⟨-, q, hq, rfl⟩⟩ := hresult
    · refine ⟨fun p => ?_, ho.seen_of_words hc hword⟩
      rw [ho.isFree_iff, ho'.isFree_iff]
    · exact absurd hn (hcond q hq)

theorem allocproc_spec (ho : Owned k s.mem o l) :
    Ensures allocproc s (fun r s' =>
      match r with
      | none => s'.mem.word = s.mem.word ∧ Owned k s'.mem o l ∧
          ((∀ p, (s.proc p).state ≠ .unused) ∨ FirstRefused s.mem 0)
      | some np => (s.proc np).state = .unused ∧ ∃ q rest, l = q :: rest ∧
          (s'.proc np).kstack = q ∧ (∀ p, p ≠ np → s'.proc p = s.proc p) ∧
          s'.mem.word = s.mem.word ∧ Owned k s'.mem (update o q .held) rest ∧
          Granted s.mem l s'.mem rest) fun _ => False := by
  unfold allocproc
  simp only [ensures_bind, ensures_get]
  cases hfind : (finRange 64).find? fun p => decide ((s.proc p).state = .unused) with
  | none =>
    simp only [ensures_pure]
    refine ⟨trivial, ho, Or.inl fun p hp => ?_⟩
    have hnot := find?_eq_none.mp hfind p (mem_finRange p)
    simp [hp] at hnot
  | some np =>
    have hunused : (s.proc np).state = .unused := by simpa using find?_some hfind
    simp only [ensures_bind, ensures_modify, ensures_onMem]
    refine (kalloc_spec ho).post ?_
    rintro r m₁ ⟨hword, hresult⟩
    cases r with
    | none =>
      simp only [ensures_bind, ensures_modify, ensures_pure]
      refine ⟨hword, hresult.1, Or.inr ?_⟩
      have hrefused := hresult.2.firstRefused ho
      rwa [Nat.sub_self] at hrefused
    | some q =>
      obtain ⟨rest, rfl, ho₁, hgranted⟩ := hresult
      simp only [ensures_bind, ensures_modify, ensures_pure]
      refine ⟨hunused, q, rest, rfl, by simp, ?_, hword, ho₁, hgranted⟩
      intro p hp
      simp [Sys.setProc, hp]

theorem FirstRefused.tail (hg : Granted m (p :: l) m' l) (ho : Owned k m o (p :: l))
    (ho' : Owned k m' o' l) : FirstRefused m (n + 1) ↔ FirstRefused m' n := by
  rw [FirstRefused, FirstRefused, hg.grants_tail ho ho', hg.grants_tail ho ho']

theorem fork_spec (ho : Owned k s.mem o l)
    (hc : o (s.proc cur).pgdir = .dir h)
    (hpresent : ∀ v < pgroundup (s.proc cur).sz, (pteOf s.mem (s.proc cur).pgdir v).isSome) :
    Ensures (fork k cur) s (fun r s' =>
      match r with
      | none => ((∃ l', Owned k s'.mem o l') ∧ ((∀ p, (s.proc p).state ≠ .unused) ∨
            ∃ n, FirstRefused s.mem n ∧ ∀ q, n ≠ 67 + 1025 * q)) ∨
          ((∃ p l', o p = .free ∧ Owned k s'.mem (update o p .held) l') ∧
            (∃ p, (s.proc p).state = .unused) ∧
            ∃ q, 1024 * q < pgroundup (s.proc cur).sz ∧ FirstRefused s.mem (67 + 1025 * q))
      | some _ => Grants s.mem (copyRequests (pgroundup (s.proc cur).sz) + 1)) fun _ => False := by
  generalize hslot : s.proc cur = slot at hc hpresent
  simp only [fork, ensures_bind, ensures_get, hslot]
  refine (allocproc_spec ho).post ?_
  intro r s₁ hresult
  cases r with
  | none =>
    obtain ⟨hword, ho₁, hcause⟩ := hresult
    simp only [ensures_pure]
    refine Or.inl ⟨⟨l, ho₁⟩, hcause.imp_right fun hrefused => ⟨0, hrefused, fun q => by omega⟩⟩
  | some np =>
    obtain ⟨hunused, q, rest, rfl, hkstack, -, hword, ho₁, hgranted⟩ := hresult
    have hfree : o q = .free := (ho.free_iff q).mp mem_cons_self
    have hc₁ : update o q .held slot.pgdir = .dir h := by
      rw [update_of_ne]
      · exact hc
      · intro heq
        simp [heq, hfree] at hc
    have hptes : pteOf s₁.mem slot.pgdir = pteOf s.mem slot.pgdir :=
      ho.pteOf_congr hc fun q _ => congrFun hword q
    have hback : update (update o q .held) q .free = o := by
      rw [update_idem, ← hfree, update_eq_self]
    simp only [ensures_bind, ensures_get, ensures_onMem, hkstack]
    refine (copyuvm_spec ho₁ hc₁ (by rwa [hptes])).post ?_
    intro r m₂ hresult
    cases r with
    | none =>
      obtain ⟨n, -, hn, hcase⟩ := hresult
      have hn' := (FirstRefused.tail hgranted ho ho₁).mpr hn
      simp only [ensures_bind, ensures_onMem]
      have husable := ho.usable q (by simp [hfree])
      rw [kfree_ensures husable]
      simp only [ensures_modify, ensures_pure, Sys.setProc_mem]
      rcases hcase with ⟨⟨l', ho', -⟩, hne⟩ | ⟨⟨p, content, hp, l', ho', -⟩, i, hi, rfl⟩
      · refine Or.inl ⟨⟨q :: l', ?_⟩, Or.inr ⟨n + 1, hn', fun i => ?_⟩⟩
        · have hpush := ho'.push (p := q) (by simp [Role.Mapped]) (by simp) husable
          rwa [hback] at hpush
        · have hnot := hne i
          omega
      · have hpq : p ≠ q := by
          rintro rfl
          simp at hp
        rw [update_of_ne hpq] at hp
        refine Or.inr ⟨⟨p, q :: l', hp, ?_⟩, ⟨np, hunused⟩, i, hi, ?_⟩
        · have hpush := ho'.push (p := q) (by simp [hpq.symm, Role.Mapped])
            (by simp [hpq.symm]) husable
          rwa [update_comm hpq, hback] at hpush
        · rwa [show 67 + 1025 * i = 66 + 1025 * i + 1 by omega]
    | some d =>
      obtain ⟨o', l', hcopy⟩ := hresult
      simp only [ensures_bind, ensures_modify, ensures_pure]
      rw [hgranted.grants_tail ho ho₁]
      have hcount := hcopy.count
      exact (hcopy.granted.grants ho₁).mono (by omega)

theorem forkClean_iff (ho : Owned k s.mem o l) (hc : o (s.proc cur).pgdir = .dir h)
    (hpresent : ∀ v < pgroundup (s.proc cur).sz, (pteOf s.mem (s.proc cur).pgdir v).isSome) :
    ForkClean k cur s ↔ ∀ q, 1024 * q < pgroundup (s.proc cur).sz →
      (∃ p, (s.proc p).state = .unused) → ¬ FirstRefused s.mem (67 + 1025 * q) := by
  obtain ⟨r, s', hrun, hresult⟩ := (fork_spec ho hc hpresent).total
  generalize pgroundup (s.proc cur).sz = pages at hresult
  constructor
  · rintro hclean q hq ⟨p, hp⟩ hrefused
    cases r with
    | none =>
      rcases hresult with ⟨-, hfull | ⟨n, hn, hne⟩⟩ | ⟨⟨p', l', hfree, ho'⟩, -⟩
      · exact hfull p hp
      · exact hne q (hn.unique hrefused)
      · have hsame := hclean s' hrun p'
        rw [ho.isFree_iff, ho'.isFree_iff] at hsame
        simp [hfree] at hsame
    | some np =>
      refine hrefused.2 (hresult.mono ?_)
      rw [copyRequests]
      omega
  · intro hcond s'' hrun' p
    rw [hrun] at hrun'
    simp only [EStateM.Result.ok.injEq] at hrun'
    obtain ⟨rfl, rfl⟩ := hrun'
    rcases hresult with ⟨⟨l', ho'⟩, -⟩ | ⟨-, hunused, q, hq, hrefused⟩
    · rw [ho.isFree_iff, ho'.isFree_iff]
    · exact absurd hrefused (hcond q hq hunused)

/-- A copy that fails gives back all its pages, unless what fails is the page behind one that has
been taken, for the table to map it in. -/
theorem failed_copy_clean_iff (ho : Owned k s.mem o l) (hc : o (s.proc cur).pgdir = .dir h)
    (hpresent : ∀ v < pgroundup (s.proc cur).sz, (pteOf s.mem (s.proc cur).pgdir v).isSome) :
    (CopyClean k (s.proc cur).pgdir (s.proc cur).sz s.mem ↔
      ∀ q, 1024 * q < pgroundup (s.proc cur).sz → ¬ FirstRefused s.mem (66 + 1025 * q)) ∧
    (ForkClean k cur s ↔ ∀ q, 1024 * q < pgroundup (s.proc cur).sz →
      (∃ p, (s.proc p).state = .unused) → ¬ FirstRefused s.mem (67 + 1025 * q)) :=
  ⟨copyClean_iff ho hc hpresent, forkClean_iff ho hc hpresent⟩

theorem exists_onePage (n : ℕ) (hpos : 0 < n) (hn : n ≤ 10000) :
    ∃ (s : Sys) (o : ℕ → Role) (l : List ℕ), Owned smallKernel s.mem o l ∧
      o (s.proc 0).pgdir = .dir .nobody ∧ (s.proc 0).sz = 4096 ∧
      (∀ v < pgroundup 4096, (pteOf s.mem (s.proc 0).pgdir v).isSome) ∧
      l.length = n ∧ ∀ i, Grants s.mem i ↔ i ≤ n := by
  have hkern : kernpage = 524288 := rfl
  have hone : pgroundup 4096 = 1 := rfl
  obtain ⟨s, o, l, ho, hd, hsz, hpresent, hlength, hrefuse⟩ :=
    exists_process n 4096 hpos hn (by decide)
  refine ⟨s, o, l, ho, hd, hsz, ?_, hlength, ?_⟩
  · intro v hv
    exact (hpresent v (by omega)).mpr hv
  · intro i
    rw [ho.grants_iff, hlength, hrefuse]
    simp

theorem failed_copy_clean_noTables : ∃ s : Sys, (s.proc 0).sz = 4096 ∧
    CopyClean smallKernel (s.proc 0).pgdir 4096 s.mem ∧ ForkClean smallKernel 0 s := by
  obtain ⟨s, o, l, ho, hd, hsz, hpresent, -, hgrants⟩ := exists_onePage 10 (by decide) (by decide)
  have hclean := failed_copy_clean_iff ho hd (by rwa [hsz])
  rw [hsz] at hclean
  refine ⟨s, hsz, hclean.1.mpr ?_, hclean.2.mpr ?_⟩
  · intro q _ hrefused
    have hle := (hgrants _).mp hrefused.1
    omega
  · intro q _ _ hrefused
    have hle := (hgrants _).mp hrefused.1
    omega

/-- A process of one page is copied when there are 66 free pages: the last one is for the frame,
and there is none for its table. -/
theorem copyuvm_loses_frame : ∃ (s : Sys) (o : ℕ → Role) (l : List ℕ),
    Owned smallKernel s.mem o l ∧ o (s.proc 0).pgdir = .dir .nobody ∧ (s.proc 0).sz = 4096 ∧
    (∀ v < pgroundup 4096, (pteOf s.mem (s.proc 0).pgdir v).isSome) ∧
    ∃ m' p, copyuvm smallKernel (s.proc 0).pgdir 4096 s.mem = .ok none m' ∧
      IsFree s.mem p ∧ ¬ IsFree m' p := by
  obtain ⟨s, o, l, ho, hd, hsz, hpresent, hlength, hgrants⟩ :=
    exists_onePage 66 (by decide) (by decide)
  refine ⟨s, o, l, ho, hd, hsz, hpresent, ?_⟩
  obtain ⟨r, m', hrun, hresult⟩ := (copyuvm_spec ho hd hpresent).total
  cases r with
  | none =>
      obtain ⟨n, hle, hn, ⟨-, hne⟩ | ⟨⟨p, content, hfree, l', ho', -⟩, -⟩⟩ := hresult
      · rw [FirstRefused, hgrants, hgrants] at hn
        exact absurd (by omega) (hne 0)
      · refine ⟨m', p, hrun, ho.isFree_iff.mpr hfree, ?_⟩
        rw [ho'.isFree_iff]
        simp
  | some d =>
      obtain ⟨o', l', hcopy⟩ := hresult
      have hone : pgroundup 4096 = 1 := rfl
      have hcount := hcopy.count
      rw [copyRequests] at hcount
      omega

/-- A word of a user page is written through the address space `d`, if the page is there. -/
def writeThrough (d : ℕ) (m : PhysMem) (write : ℕ × ℕ × ℕ) : PhysMem :=
  match pteOf m d write.1 with
  | none => m
  | some w =>
      if write.1 < kernpage then m.setWord (pteAddr w) write.2.1 write.2.2 else m

theorem Owned.writeThrough (ho : Owned k m o l) (hd : o d = .dir h) (write : ℕ × ℕ × ℕ) :
    Owned k (writeThrough d m write) o l ∧
      ∀ p, (∀ v, o p ≠ .frame d v) → (writeThrough d m write).word p = m.word p := by
  unfold Vm.writeThrough
  cases hpte : pteOf m d write.1 with
  | none => exact ⟨ho, fun _ _ => rfl⟩
  | some w =>
    by_cases huser : write.1 < kernpage
    · simp only [if_pos huser]
      have hframe := ho.frame_of_pte hd huser hpte
      refine ⟨ho.fill (by simp [hframe, Role.Plain]) _, ?_⟩
      intro p hp
      have hne : p ≠ pteAddr w := by
        rintro rfl
        exact hp _ hframe
      rw [PhysMem.word_setWord, update_of_ne hne]
    · simp only [if_neg huser]
      exact ⟨ho, fun _ _ => trivial⟩

theorem Owned.writes (ho : Owned k m o l) (hd : o d = .dir h) (writes : List (ℕ × ℕ × ℕ)) :
    Owned k (writes.foldl (Vm.writeThrough d) m) o l ∧
      ∀ p, (∀ v, o p ≠ .frame d v) → (writes.foldl (Vm.writeThrough d) m).word p = m.word p := by
  induction writes generalizing m with
  | nil => exact ⟨ho, fun _ _ => rfl⟩
  | cons write rest ih =>
    obtain ⟨ho₁, hword₁⟩ := ho.writeThrough hd write
    obtain ⟨ho₂, hword₂⟩ := ih ho₁
    exact ⟨ho₂, fun p hp => (hword₂ p hp).trans (hword₁ p hp)⟩

theorem Owned.writes_seen (ho : Owned k m o l) (hd : o d = .dir h) (hc : o c = .dir h')
    (hne : c ≠ d) (writes : List (ℕ × ℕ × ℕ)) (hv : v < kernpage) :
    seen (writes.foldl (Vm.writeThrough d) m) c v = seen m c v := by
  obtain ⟨-, hword⟩ := ho.writes hd writes
  refine ho.seen_congr hc hv (congrFun (ho.pteOf_congr hc ?_) v) ?_
  · rintro q (rfl | ⟨i, hq⟩)
    · exact hword q (by simp [hc])
    · exact hword q (by simp [hq])
  · intro p hp
    refine hword p fun v' hv' => ?_
    rw [hp] at hv'
    simp only [Role.frame.injEq] at hv'
    exact hne hv'.1

/-- The address space `d` of `m'` is a copy, in frames of its own, of what is below `sz` in the
address space `c` of `m`, and no write through one of them is seen through the other. -/
structure IsolatedCopy (c d sz : ℕ) (m : PhysMem) (o : ℕ → Role) (m' : PhysMem) : Prop where
  same : ∀ v < pgroundup sz, ∃ w₀ w, pteOf m c v = some w₀ ∧ pteOf m' d v = some w ∧
    pteFlags w = pteFlags w₀ ∧ m'.word (pteAddr w) = m.word (pteAddr w₀)
  alone : ∀ v < pgroundup sz, ∀ w, pteOf m' d v = some w → ∀ d' v' w',
    (d' = d ∨ ∃ h, o d' = .dir h) → v' < kernpage → pteOf m' d' v' = some w' →
    pteAddr w' = pteAddr w → d' = d ∧ v' = v
  above : ∀ v < kernpage, pgroundup sz ≤ v → pteOf m' d v = none
  entries : pteOf m' c = pteOf m c
  original : ∀ v < kernpage, seen m' c v = seen m c v
  parentWrites : ∀ writes : List (ℕ × ℕ × ℕ), ∀ v < kernpage,
    seen (writes.foldl (writeThrough c) m') d v = seen m' d v
  childWrites : ∀ writes : List (ℕ × ℕ × ℕ), ∀ v < kernpage,
    seen (writes.foldl (writeThrough d) m') c v = seen m' c v

/-- Parent and child see the same words and do not see what the other one writes. -/
theorem copyuvm_isolates (ho : Owned k m o l) (hc : o c = .dir h)
    (hpresent : ∀ v < pgroundup sz, (pteOf m c v).isSome)
    (hrun : copyuvm k c sz m = .ok (some d) m') : IsolatedCopy c d sz m o m' := by
  have hle := ho.present_le hc hpresent
  have hspec := copyuvm_spec ho hc hpresent
  rw [Ensures, hrun] at hspec
  obtain ⟨o', l', hcopy⟩ := hspec
  have hcd : c ≠ d := by
    rintro rfl
    simp [hcopy.free] at hc
  have hc' : o' c = .dir h := (hcopy.roles c (by simp [hc])).trans hc
  obtain ⟨hentries, hseen⟩ := ho.seen_of_words hc hcopy.words
  refine ⟨?_, ?_, hcopy.above, hentries, hseen, ?_, ?_⟩
  · intro v hv
    obtain ⟨w, hw, w₀, hw₀, hflags, hpage⟩ := hcopy.below v hv
    exact ⟨w₀, w, hw₀, hw, hflags, hpage⟩
  · intro v hv w hw d' v' w' hd' hv' hw' haddr
    have hframe := hcopy.owned.frame_of_pte hcopy.dir (by omega) hw
    have hdir : ∃ h, o' d' = .dir h := by
      rcases hd' with rfl | ⟨h, hdir⟩
      · exact ⟨_, hcopy.dir⟩
      · exact ⟨h, (hcopy.roles d' (by simp [hdir])).trans hdir⟩
    obtain ⟨h', hdir⟩ := hdir
    have hframe' := hcopy.owned.frame_of_pte hdir hv' hw'
    rw [haddr, hframe] at hframe'
    simp only [Role.frame.injEq] at hframe'
    exact ⟨hframe'.1.symm, hframe'.2.symm⟩
  · exact fun writes v hv => hcopy.owned.writes_seen hc' hcopy.dir hcd.symm writes hv
  · exact fun writes v hv => hcopy.owned.writes_seen hcopy.dir hc' hcd writes hv

theorem exists_copy : ∃ m o l c d m', Owned smallKernel m o l ∧ o c = .dir .nobody ∧
    (∀ v < pgroundup 4096, (pteOf m c v).isSome) ∧
    copyuvm smallKernel c 4096 m = .ok (some d) m' := by
  obtain ⟨s, o, l, ho, hd, -, hpresent, -, hgrants⟩ := exists_onePage 68 (by decide) (by decide)
  obtain ⟨r, m', hrun, hresult⟩ := (copyuvm_spec ho hd hpresent).total
  cases r with
  | none =>
    obtain ⟨n, hle, hn, -⟩ := hresult
    have hone : pgroundup 4096 = 1 := rfl
    rw [copyRequests] at hle
    exact absurd ((hgrants _).mpr (by omega)) hn.2
  | some d => exact ⟨_, o, l, _, d, m', ho, hd, hpresent, hrun⟩

theorem copyuvm_isolates_onePage : ∃ m c o d m', copyuvm smallKernel c 4096 m = .ok (some d) m' ∧
    IsolatedCopy c d 4096 m o m' := by
  obtain ⟨m, o, l, c, d, m', ho, hc, hpresent, hrun⟩ := exists_copy
  exact ⟨m, c, o, d, m', hrun, copyuvm_isolates ho hc hpresent hrun⟩

/-- Whatever the child writes, freeing its copy leaves the pages as they were before the fork. -/
theorem copyuvm_freevm_restores (ho : Owned k m o l) (hc : o c = .dir h)
    (hpresent : ∀ v < pgroundup sz, (pteOf m c v).isSome)
    (hrun : copyuvm k c sz m = .ok (some d) m') (writes : List (ℕ × ℕ × ℕ)) :
    ∃ m'', freevm k d (writes.foldl (writeThrough d) m') = .ok () m'' ∧
      (∀ p, IsFree m'' p ↔ IsFree m p) ∧ ∀ p, ¬ IsFree m p → m''.word p = m.word p := by
  have hspec := copyuvm_spec ho hc hpresent
  rw [Ensures, hrun] at hspec
  obtain ⟨o', l', hcopy⟩ := hspec
  obtain ⟨howned, hwords⟩ := hcopy.owned.writes hcopy.dir writes
  have hfresh : Fresh k d m o (writes.foldl (writeThrough d) m') o' l' := by
    refine { hcopy.toFresh with owned := howned, words := fun p hp => ?_ }
    have hpart := hcopy.not_partOf ho.toFits hp
    rw [hwords p fun v hv => hpart (by simp [PartOf, hv]), hcopy.words p hp]
  obtain ⟨_, m'', hfree, o'', l'', hfreed⟩ := (freevm_spec howned hcopy.dir).total
  obtain ⟨l₀, howned₀, hword⟩ := hfresh.freed ho.toFits hfreed
  refine ⟨m'', hfree, fun p => howned₀.isFree_iff.trans ho.isFree_iff.symm, fun p hp => ?_⟩
  exact hword p (mt ho.isFree_iff.mpr hp)

theorem copyuvm_freevm_restores_onePage : ∃ m c d m' m'',
    copyuvm smallKernel c 4096 m = .ok (some d) m' ∧
    freevm smallKernel d (writeThrough d m' (0, 3, 7)) = .ok () m'' ∧
    ∀ p, IsFree m'' p ↔ IsFree m p := by
  obtain ⟨m, o, l, c, d, m', ho, hc, hpresent, hrun⟩ := exists_copy
  obtain ⟨m'', hfree, hsame, -⟩ := copyuvm_freevm_restores ho hc hpresent hrun [(0, 3, 7)]
  exact ⟨m, c, d, m', m'', hrun, hfree, hsame⟩

end Xv6Kernel.Vm
