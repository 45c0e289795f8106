import Xv6Kernel.AddressSpaces

/-!
# Making, growing and copying address spaces

`setupkvm`, `allocuvm` and `copyuvm`, and what they leave behind when there are not enough
pages.
-/

namespace Xv6Kernel.Vm

open TraceExecution StateHoare Function List

variable {k : KernelImage} {m m' m'' : PhysMem} {o o' o'' : ℕ → Role} {l l' l'' : List ℕ}
  {c d p v used : ℕ} {h h' : Holder} {new : ℕ → Prop} {E : PhysMem → Prop}

/-- The address space `d` is new since `m`; all other pages are used as before. -/
structure Fresh (k : KernelImage) (d : ℕ) (m : PhysMem) (o : ℕ → Role) (m' : PhysMem)
    (o' : ℕ → Role) (l' : List ℕ) : Prop where
  owned : Owned k m' o' l'
  free : o d = .free
  dir : o' d = .dir .nobody
  roles : ∀ p, o p ≠ .free → o' p = o p
  words : ∀ p, o p ≠ .free → m'.word p = m.word p
  taken : ∀ p, o p = .free → o' p = .free ∨ PartOf o' d p

/-- The pages have their old roles, and those in use their old contents. -/
def Restored (k : KernelImage) (m : PhysMem) (o : ℕ → Role) (m' : PhysMem) : Prop :=
  ∃ l', Owned k m' o l' ∧ ∀ p, o p ≠ .free → m'.word p = m.word p

theorem Fits.not_partOf (ho : Fits m o) (hd : o d = .free) (hp : o p ≠ .free) : ¬ PartOf o d p := by
  rintro (rfl | ⟨i, htable⟩ | ⟨v, hframe⟩)
  · exact hp hd
  · obtain ⟨-, ⟨h, hdir⟩, -⟩ := ho.tabled p d i htable
    simp [hd] at hdir
  · obtain ⟨-, t, ht, -⟩ := ho.framed p d v hframe
    obtain ⟨-, ⟨h, hdir⟩, -⟩ := ho.tabled t d _ ht
    simp [hd] at hdir

theorem Fresh.not_partOf (hf : Fresh k d m o m' o' l') (ho : Fits m o) (hp : o p ≠ .free) :
    ¬ PartOf o' d p := by
  have hnot := ho.not_partOf hf.free hp
  rwa [PartOf, hf.roles p hp]

theorem Fresh.grown (hf : Fresh k d m o m' o' l') (ho : Owned k m o l)
    (hg : Grown k d new used m' o' l' m'' o'' l'') : Fresh k d m o m'' o'' l'' where
  owned := hg.owned
  free := hf.free
  dir := hg.dir hf.dir
  roles := fun p hp => (hg.roles p (hf.roles p hp ▸ hp)).trans (hf.roles p hp)
  words := by
    intro p hp
    have hnot := hf.not_partOf ho.toFits hp
    rw [hg.words p (hf.roles p hp ▸ hp) (fun heq => hnot (Or.inl heq))
      fun i hi => hnot (Or.inr (Or.inl ⟨i, hi⟩))]
    exact hf.words p hp
  taken := by
    intro p hp
    rcases hf.taken p hp with hfree | hpart
    · exact (hg.taken p hfree).imp_right fun hpart => Or.inr hpart
    · refine Or.inr ?_
      by_cases hpd : p = d
      · exact Or.inl hpd
      · have hused : o' p ≠ .free := by
          rcases hpart with heq | ⟨i, hi⟩ | ⟨v, hv⟩
          · exact absurd heq hpd
          · simp [hi]
          · simp [hv]
        rwa [PartOf, hg.roles p hused]

theorem Fresh.leak (hf : Fresh k d m o m' o' (p :: l')) {content : ℕ → ℕ}
    (hword : m''.word = update m'.word p content)
    (ho'' : Owned k m'' (update o' p .held) l') : o p = .free ∧
    Fresh k d (m.fill p content) (update o p .held) m'' (update o' p .held) l' := by
  have hfree' : o' p = .free := (hf.owned.free_iff p).mp mem_cons_self
  have hfree : o p = .free := by
    by_contra hused
    exact hused ((hf.roles p hused).symm.trans hfree')
  have hdp : d ≠ p := by
    rintro rfl
    simp [hf.dir] at hfree'
  refine ⟨hfree, ho'', ?_, ?_, ?_, ?_, ?_⟩
  · rw [update_of_ne hdp]
    exact hf.free
  · rw [update_of_ne hdp]
    exact hf.dir
  · intro q hq
    by_cases hqp : q = p
    · simp [hqp]
    · rw [update_of_ne hqp] at hq ⊢
      rw [update_of_ne hqp]
      exact hf.roles q hq
  · intro q hq
    rw [hword]
    by_cases hqp : q = p
    · simp [hqp]
    · rw [update_of_ne hqp] at hq ⊢
      rw [PhysMem.word_fill, update_of_ne hqp]
      exact hf.words q hq
  · intro q hq
    have hqp : q ≠ p := by
      rintro rfl
      simp at hq
    rw [update_of_ne hqp] at hq
    rw [PartOf, update_of_ne hqp]
    exact hf.taken q hq

theorem Fresh.freed (hf : Fresh k d m o m' o' l') (ho : Fits m o)
    (hfreed : Freed k d m' o' m'' o'' l'') : Restored k m o m'' := by
  have hroles : o'' = o := by
    funext p
    by_cases hp : o p = .free
    · rw [hp]
      by_cases hpart : PartOf o' d p
      · exact hfreed.gone p hpart
      · exact (hfreed.roles p hpart).trans ((hf.taken p hp).resolve_right hpart)
    · rw [hfreed.roles p (hf.not_partOf ho hp), hf.roles p hp]
  refine ⟨l'', hroles ▸ hfreed.owned, ?_⟩
  intro p hp
  rw [hfreed.words p (hf.not_partOf ho hp) (by rwa [hf.roles p hp])]
  exact hf.words p hp

/-! ## `setupkvm` -/

/-- A range of virtual pages that the kernel maps for itself. -/
structure KernelRange (e : ℕ × ℕ × ℕ × ℕ) : Prop where
  low : kernpage ≤ e.1
  high : e.1 + e.2.2.1 ≤ 2 ^ 20
  perm : ∀ p, pteU (entry p e.2.2.2) = false

def InRange (e : ℕ × ℕ × ℕ × ℕ) (v : ℕ) : Prop := e.1 ≤ v ∧ v < e.1 + e.2.2.1

theorem mapKernel_spec {entries : List (ℕ × ℕ × ℕ × ℕ)} (ho : Owned k m o l)
    (hd : o d = .dir h) (hranges : ∀ e ∈ entries, KernelRange e)
    (hdisjoint : entries.Pairwise fun e e' => e.1 + e.2.2.1 ≤ e'.1)
    (habsent : ∀ e ∈ entries, ∀ v, InRange e v → pteOf m d v = none) :
    Ensures (mapKernel d entries) m (fun r m' => ∃ o' l',
      Grown k d (fun v => ∃ e ∈ entries, InRange e v) 0 m o l m' o' l' ∧
      (∀ v, (∀ e ∈ entries, ¬ InRange e v) → pteOf m' d v = pteOf m d v) ∧
      if r then Granted m l m' l' ∧ ∀ e ∈ entries, ∀ v, InRange e v → (pteOf m' d v).isSome
      else Stuck m l l') fun _ => False := by
  induction entries generalizing m o l with
  | nil =>
    simp only [mapKernel, ensures_pure]
    exact ⟨o, l, Grown.same ho rfl _, fun _ _ => trivial, Granted.refl m l, by simp⟩
  | cons e rest ih =>
    obtain ⟨v, p, n, perm⟩ := e
    rw [forall_mem_cons] at hranges habsent
    rw [pairwise_cons] at hdisjoint
    simp only [mapKernel, ensures_bind]
    refine (mappages_kernel (n := n) ho hd hranges.1.low hranges.1.high
      (fun v' hle hlt => habsent.1 v' ⟨hle, hlt⟩) hranges.1.perm).post ?_
    rintro r m₁ ⟨o₁, l₁, hg, hother, hresult⟩
    cases r with
    | false =>
      simp only [Bool.false_eq_true, if_false, ensures_pure] at hresult ⊢
      refine ⟨o₁, l₁, hg.mono ?_, ?_, hresult⟩
      · exact fun v' hv' => ⟨_, mem_cons_self, hv'⟩
      · exact fun v' hv' => hother v' (hv' _ mem_cons_self)
    | true =>
      simp only [if_true] at hresult ⊢
      have habsent' : ∀ e ∈ rest, ∀ v', InRange e v' → pteOf m₁ d v' = none := by
        intro e he v' hv'
        have hsep := hdisjoint.1 e he
        simp only [InRange] at hv' hsep
        rw [hother v' (by omega)]
        exact habsent.2 e he v' hv'
      refine (ih hg.owned (hg.dir hd) hranges.2 hdisjoint.2 habsent').post ?_
      rintro r m₂ ⟨o₂, l₂, hg₂, hother₂, hresult₂⟩
      refine ⟨o₂, l₂, (hg.trans hg₂).mono ?_, ?_, ?_⟩
      · rintro v' (hnew | ⟨e, he, hv'⟩)
        · exact ⟨_, mem_cons_self, hnew⟩
        · exact ⟨e, mem_cons_of_mem _ he, hv'⟩
      · intro v' hv'
        rw [forall_mem_cons] at hv'
        exact (hother₂ v' hv'.2).trans (hother v' hv'.1)
      · cases r with
        | false => exact hresult.1.stuck hresult₂
        | true =>
          simp only [if_true] at hresult₂ ⊢
          rw [forall_mem_cons]
          refine ⟨hresult.1.trans hresult₂.1, ?_, hresult₂.2⟩
          intro v' hv'
          rw [hother₂]
          · exact hresult.2 v' hv'.1 hv'.2
          · intro e he hin
            have hsep := hdisjoint.1 e he
            simp only [InRange] at hv' hin hsep
            omega

theorem kmap_bounds (k : KernelImage) :
    kernpage = 524288 ∧ devspace = 1040384 ∧ phystop = 57344 ∧
      256 < k.data ∧ k.data ≤ k.stop ∧ k.stop < 1024 :=
  ⟨rfl, rfl, rfl, k.data_gt, k.data_le, k.stop_lt⟩

theorem kmap_ranges (k : KernelImage) : ∀ e ∈ kmap k, KernelRange e := by
  have hbounds := kmap_bounds k
  have hw : ∀ p, pteU (entry p permW) = false := by
    intro p
    have hbits : permW ||| 1 = 3 := rfl
    refine decide_eq_false ?_
    rw [entry, hbits]
    omega
  have hr : ∀ p, pteU (entry p 0) = false := by
    intro p
    have hbits : 0 ||| 1 = 1 := rfl
    refine decide_eq_false ?_
    rw [entry, hbits]
    omega
  simp only [kmap, forall_mem_cons, not_mem_nil, false_imp_iff, implies_true, and_true]
  refine ⟨⟨?_, ?_, hw⟩, ⟨?_, ?_, hr⟩, ⟨?_, ?_, hw⟩, ⟨?_, ?_, hw⟩⟩
  all_goals
    simp only
    omega

theorem kmap_disjoint (k : KernelImage) : (kmap k).Pairwise fun e e' => e.1 + e.2.2.1 ≤ e'.1 := by
  have hbounds := kmap_bounds k
  simp only [kmap, pairwise_cons, forall_mem_cons, not_mem_nil, false_imp_iff,
    implies_true, and_true, List.Pairwise.nil]
  omega

theorem kmap_covers (k : KernelImage) (v : ℕ) : (∃ e ∈ kmap k, InRange e v) ↔
    kernpage ≤ v ∧ v < 2 ^ 20 ∧ (v < kernpage + phystop ∨ devspace ≤ v) := by
  have hbounds := kmap_bounds k
  simp only [kmap, mem_cons, not_mem_nil, or_false, exists_eq_or_imp, exists_eq_left, InRange]
  omega

theorem kernelTables_le (hg : Grown k d (fun v => ∃ e ∈ kmap k, InRange e v) used m o l m' o' l')
    (hempty : ∀ i, pteP (m.word d i) = false) :
    (Finset.range 1024).filter (fun i => pteP (m'.word d i) = true) ⊆
      Finset.Ico 512 568 ∪ Finset.Ico 1016 1024 := by
  intro i hi
  rw [Finset.mem_filter, Finset.mem_range] at hi
  rcases hg.pdes i hi.1 hi.2 with hold | ⟨v, hin, hv⟩
  · simp [hempty] at hold
  · have hkern : kernpage = 524288 := rfl
    have hphys : phystop = 57344 := rfl
    have hdev : devspace = 1040384 := rfl
    have hrange := (kmap_covers k v).mp hin
    rw [Finset.mem_union, Finset.mem_Ico, Finset.mem_Ico]
    omega

/-- What `setupkvm` makes: a directory that maps the kernel only. -/
structure NewSpace (k : KernelImage) (d : ℕ) (m : PhysMem) (o : ℕ → Role) (l : List ℕ)
    (m' : PhysMem) (o' : ℕ → Role) (l' : List ℕ) : Prop extends Fresh k d m o m' o' l' where
  granted : Granted m l m' l'
  count : l'.length + 65 = l.length
  user : ∀ v < kernpage, pteOf m' d v = none
  devices : ∀ v, devspace ≤ v → v < 2 ^ 20 → (pteOf m' d v).isSome
  tables : (Finset.range 1024).filter (fun i => pteP (m'.word d i) = true) =
    Finset.Ico 512 568 ∪ Finset.Ico 1016 1024

theorem setupkvm_spec (ho : Owned k m o l) :
    Ensures (setupkvm k) m (fun r m' =>
      match r with
      | none => Restored k m o m' ∧ ∃ l₀, Stuck m l l₀ ∧ l.length ≤ l₀.length + 65
      | some d => ∃ o' l', NewSpace k d m o l m' o' l') fun _ => False := by
  simp only [setupkvm, ensures_bind]
  refine (kalloc_spec ho).post ?_
  rintro r m₁ ⟨hword, hresult⟩
  cases r with
  | none =>
    simp only [ensures_pure]
    exact ⟨⟨l, hresult.1, fun p _ => congrFun hword p⟩, l, hresult.2, by omega⟩
  | some d =>
    obtain ⟨rest, rfl, ho₁, hgranted⟩ := hresult
    have hfree : o d = .free := (ho.free_iff d).mp mem_cons_self
    simp only [ensures_bind, ensures_modify]
    have hdir := (ho₁.fill (p := d) (by simp [Role.Plain]) fun _ => 0).newDir (h := .nobody)
      (d := d) (by simp) (by simp)
    rw [update_idem] at hdir
    have hnone : ∀ v, pteOf (m₁.fill d fun _ => 0) d v = none := by
      intro v
      simp [pteOf]
    have hfresh : Fresh k d m o (m₁.fill d fun _ => 0) (update o d (.dir .nobody)) rest := by
      have hne : ∀ p, o p ≠ .free → p ≠ d := by
        rintro p hp rfl
        exact hp hfree
      refine ⟨hdir, hfree, by simp, ?_, ?_, ?_⟩
      · exact fun p hp => update_of_ne (hne p hp) ..
      · intro p hp
        simp [hne p hp, hword]
      · intro p hp
        by_cases hpd : p = d
        · exact Or.inr (Or.inl hpd)
        · exact Or.inl (by rwa [update_of_ne hpd])
    refine (mapKernel_spec hdir (h := .nobody) (by simp) (kmap_ranges k) (kmap_disjoint k)
      fun e _ v _ => hnone v).post ?_
    rintro r m₂ ⟨o₂, l₂, hg, hother, hresult⟩
    have hfresh₂ := hfresh.grown ho hg
    have hsub := kernelTables_le hg (by simp)
    have hcard : (Finset.Ico 512 568 ∪ Finset.Ico 1016 1024 : Finset ℕ).card = 64 := by
      decide +kernel
    have hcount := hg.count
    have hzero : tableCount (m₁.fill d fun _ => 0) d = 0 := by simp [tableCount]
    rw [hzero] at hcount
    cases r with
    | false =>
      simp only [Bool.false_eq_true, if_false, ensures_bind, ensures_pure] at hresult ⊢
      refine (freevm_spec hg.owned hfresh₂.dir).post ?_
      rintro - m₃ ⟨o₃, l₃, hfreed⟩
      refine ⟨hfresh₂.freed ho.toFits hfreed, l₂, hgranted.stuck hresult, ?_⟩
      have hle := Finset.card_le_card hsub
      rw [hcard, ← tableCount] at hle
      rw [length_cons]
      omega
    | true =>
      simp only [if_true, ensures_pure] at hresult ⊢
      have hdev : devspace = 1040384 := rfl
      have hkern : kernpage = 524288 := rfl
      have hphys : phystop = 57344 := rfl
      have hsome : ∀ v, kernpage ≤ v → v < 2 ^ 20 → (v < kernpage + phystop ∨ devspace ≤ v) →
          (pteOf m₂ d v).isSome := by
        intro v hlow hhigh hv
        obtain ⟨e, he, hin⟩ := (kmap_covers k v).mpr ⟨hlow, hhigh, hv⟩
        exact hresult.2 e he v hin
      have htables : (Finset.range 1024).filter (fun i => pteP (m₂.word d i) = true) =
          Finset.Ico 512 568 ∪ Finset.Ico 1016 1024 := by
        refine Finset.Subset.antisymm hsub ?_
        intro i hi
        rw [Finset.mem_union, Finset.mem_Ico, Finset.mem_Ico] at hi
        obtain ⟨w, hw⟩ := Option.isSome_iff_exists.mp (hsome (1024 * i) (by omega) (by omega)
          (by omega))
        have hpde := (pteOf_eq_some.mp hw).2.1
        rw [Nat.mul_div_cancel_left i (by decide)] at hpde
        rw [Finset.mem_filter, Finset.mem_range]
        exact ⟨by omega, hpde⟩
      have htotal : tableCount m₂ d = 64 := by
        rw [tableCount, htables, hcard]
      refine ⟨o₂, l₂, hfresh₂, hgranted.trans hresult.1, ?_, ?_, ?_, htables⟩
      · rw [length_cons]
        omega
      · intro v hv
        rw [hother v, hnone v]
        intro e he hin
        have hlow := ((kmap_covers k v).mp ⟨e, he, hin⟩).1
        omega
      · exact fun v hlow hhigh => hsome v (by omega) hhigh (Or.inr hlow)

/-! ## `allocuvm` -/

/-- The entries are as they were, and of the pages that were taken only tables are left. -/
structure Undone (k : KernelImage) (d : ℕ) (m : PhysMem) (o : ℕ → Role) (m' : PhysMem)
    (o' : ℕ → Role) (l' : List ℕ) : Prop where
  owned : Owned k m' o' l'
  roles : ∀ p, o p ≠ .free → o' p = o p
  taken : ∀ p, o p = .free → o' p = .free ∨ ∃ i, o' p = .table d i
  words : ∀ p, o p ≠ .free → p ≠ d → (∀ i, o p ≠ .table d i) → m'.word p = m.word p
  ptes : pteOf m' d = pteOf m d

theorem Shrunk.giveBack {old : ℕ → Prop} {content : ℕ → ℕ} {m₁ : PhysMem}
    (ho : Owned k m o (p :: l)) (hd : o d = .dir h) (hword : m₁.word = update m.word p content)
    (hs : Shrunk k d old m₁ (update o p .held) m' o' l') :
    o' p = .held ∧ Shrunk k d old m o (m'.push p) (update o' p .free) (p :: l') := by
  have hfree : o p = .free := (ho.free_iff p).mp mem_cons_self
  have hdp : d ≠ p := by
    rintro rfl
    simp [hd] at hfree
  have hheld : o' p = .held := by
    rcases hs.roles p with hrole | ⟨⟨v, -, hframe⟩, -⟩
    · simpa using hrole
    · simp at hframe
  have hd' : o' d = .dir h := hs.dir (by rwa [update_of_ne hdp])
  have hptes : pteOf (m'.push p) d = pteOf m' d := by
    refine hs.owned.pteOf_congr hd' ?_
    intro q hq
    refine PhysMem.word_push_of_ne _ _ ?_
    rintro rfl
    rcases hq with rfl | ⟨i, hq⟩
    · exact hdp rfl
    · simp [hheld] at hq
  have hptes₁ : pteOf m₁ d = pteOf m d := by
    refine ho.pteOf_congr hd ?_
    intro q hq
    rw [hword, update_of_ne]
    rintro rfl
    rcases hq with rfl | ⟨i, hq⟩
    · exact hdp rfl
    · simp [hfree] at hq
  refine ⟨hheld, hs.owned.push (by simp [hheld, Role.Mapped]) (by simp [hheld])
    (hs.owned.usable p (by simp [hheld])), ?_, ?_, ?_, ?_⟩
  · intro q
    by_cases hqp : q = p
    · subst q
      exact Or.inl (by rw [update_self, hfree])
    · have hrole := hs.roles q
      rwa [update_of_ne hqp] at hrole ⊢
  · intro q hq htable
    have hqp : q ≠ p := by
      rintro rfl
      simp at hq
    rw [update_of_ne hqp] at hq
    rw [PhysMem.word_push_of_ne _ _ hqp,
      hs.words q hq (by rwa [update_of_ne hqp]), hword, update_of_ne hqp]
  · intro v hv
    rw [hptes]
    exact hs.gone v hv
  · intro v hv
    rw [hptes, hs.kept v hv, hptes₁]

theorem Shrunk.of_word {old : ℕ → Prop} {m₁ : PhysMem} (hs : Shrunk k d old m₁ o m' o' l')
    (hword : m₁.word = m.word) : Shrunk k d old m o m' o' l' where
  owned := hs.owned
  roles := hs.roles
  words := fun p hp htable => (hs.words p hp htable).trans (congrFun hword p)
  gone := hs.gone
  kept := fun v hv => (hs.kept v hv).trans (by rw [pteOf, hword, pteOf])

theorem Filled.undo {P : ℕ → ℕ → (ℕ → ℕ) → Prop} {first a last : ℕ}
    (hf : Filled k d P first a m o l m' o' l') (ho : Owned k m o l) (hd : o d = .dir h)
    (hs : Shrunk k d (fun v => first ≤ v ∧ v < last) m' o' m'' o'' l'') (ha : a ≤ last)
    (habsent : ∀ v, first ≤ v → v < last → pteOf m d v = none) : Undone k d m o m'' o'' l'' := by
  have hptes : pteOf m'' d = pteOf m d := by
    funext v
    by_cases hv : first ≤ v ∧ v < last
    · rw [hs.gone v hv, habsent v hv.1 hv.2]
    · rw [hs.kept v hv]
      exact hf.others v (by omega)
  have hkept : ∀ p, o p ≠ .free → o'' p = o p := by
    intro p hp
    rcases hs.roles p with hrole | ⟨⟨v, hv, hframe⟩, -⟩
    · exact hrole.trans (hf.roles p hp)
    · rw [hf.roles p hp] at hframe
      obtain ⟨-, w, hpte, -⟩ := ho.pte_of_frame hframe
      rw [habsent v hv.1 hv.2] at hpte
      contradiction
  refine ⟨hs.owned, hkept, ?_, ?_, hptes⟩
  · intro p hp
    rcases hs.roles p with hrole | ⟨-, hfree⟩
    · rcases hf.taken p hp with hfree | ⟨i, htable⟩ | ⟨v, hframe⟩
      · exact Or.inl (hrole.trans hfree)
      · exact Or.inr ⟨i, hrole.trans htable⟩
      · -- a frame that is still mapped was mapped before, and would not have been free
        obtain ⟨hv, w, hpte, rfl⟩ := hs.owned.pte_of_frame (hrole.trans hframe)
        rw [hptes] at hpte
        simp [ho.frame_of_pte hd hv hpte] at hp
    · exact Or.inl hfree
  · intro p hp hpd htable
    rw [hs.words p (by rwa [hkept p hp]) (by rwa [hf.roles p hp])]
    exact hf.words p hp hpd htable

def zeroed (_ w : ℕ) (page : ℕ → ℕ) : Prop := w = entry (pteAddr w) permWU ∧ page = fun _ => 0

def RanOut (k : KernelImage) (d : ℕ) (P : ℕ → ℕ → (ℕ → ℕ) → Prop) (first last : ℕ) (m : PhysMem)
    (o : ℕ → Role) (l : List ℕ) : Prop :=
  ∃ a m' o' l' l₀, first ≤ a ∧ a < last ∧ Filled k d P first a m o l m' o' l' ∧ Stuck m l l₀ ∧
    l'.length ≤ l₀.length + 1

theorem allocLoop_spec {oldsz newsz n a : ℕ} (ho : Owned k m o l) (hd : o d = .dir h)
    (hnew : newsz < kernbase) (hlast : pgroundup newsz = a + n) (hfirst : pgroundup oldsz ≤ a)
    (habsent : ∀ v, pgroundup oldsz ≤ v → v < pgroundup newsz → pteOf m d v = none)
    (hf : Filled k d zeroed (pgroundup oldsz) a m o l m' o' l') :
    Ensures (allocLoop k d oldsz newsz n a) m' (fun r m'' => ∃ o'' l'',
      (r = newsz ∧ Filled k d zeroed (pgroundup oldsz) (pgroundup newsz) m o l m'' o'' l'') ∨
      (r = 0 ∧ Undone k d m o m'' o'' l'' ∧
        RanOut k d zeroed (pgroundup oldsz) (pgroundup newsz) m o l)) fun _ => False := by
  have hbase : kernbase = 2147483648 := rfl
  have hkern : kernpage = 524288 := rfl
  have hle : pgroundup newsz ≤ kernpage := by
    rw [pgroundup]
    omega
  induction n generalizing a m' o' l' with
  | zero =>
    simp only [allocLoop, ensures_pure]
    refine ⟨o', l', Or.inl ⟨trivial, ?_⟩⟩
    rwa [hlast, Nat.add_zero]
  | succ n ih =>
    simp only [allocLoop, ensures_bind]
    refine (kalloc_spec hf.owned).post ?_
    rintro r m₁ ⟨hword, hresult⟩
    cases r with
    | none =>
      simp only [ensures_bind, ensures_pure]
      refine (deallocuvm_spec newsz oldsz hresult.1 (hf.dir hd) hnew.le).post ?_
      rintro - m₂ ⟨-, o₂, l₂, hs⟩
      refine ⟨o₂, l₂, Or.inr ⟨trivial, ?_, ?_⟩⟩
      · exact hf.undo ho hd (hs.of_word hword) (by omega) habsent
      · exact ⟨a, m', o', l', l', hfirst, by omega, hf, hf.granted.stuck hresult.2, by omega⟩
    | some p =>
      obtain ⟨rest, rfl, ho₁, hgranted⟩ := hresult
      simp only [ensures_bind, ensures_modify]
      refine (hf.page hd (by omega) hfirst (habsent a hfirst (by omega)) hword ho₁ hgranted
        (by decide) ⟨by rw [pteAddr_entry (by decide)], rfl⟩).post ?_
      intro r m₂ hresult
      cases r with
      | false =>
        obtain ⟨hword₂, ho₂, hstuck, -⟩ := hresult
        simp only [Bool.false_eq_true, if_false, ensures_bind, ensures_pure]
        have hdp : d ≠ p := by
          rintro rfl
          have hfree := (hf.owned.free_iff d).mp mem_cons_self
          simp [hf.dir hd] at hfree
        refine (deallocuvm_spec newsz oldsz ho₂ (h := h)
          (by rw [update_of_ne hdp]; exact hf.dir hd) hnew.le).post ?_
        rintro - m₃ ⟨-, o₃, l₃, hs⟩
        obtain ⟨hheld, hs'⟩ := Shrunk.giveBack hf.owned (hf.dir hd) hword₂ hs
        rw [kfree_ensures (hs.owned.usable p (by simp [hheld]))]
        refine ⟨_, _, Or.inr ⟨trivial, hf.undo ho hd hs' (by omega) habsent, ?_⟩⟩
        exact ⟨a, m', o', p :: rest, rest, hfirst, by omega, hf, hstuck, by simp⟩
      | true =>
        obtain ⟨o₂, l₂, hf₂⟩ := hresult
        simp only [if_true]
        exact ih (by omega) (by omega) hf₂

theorem allocuvm_spec (oldsz newsz : ℕ) (ho : Owned k m o l) (hd : o d = .dir h)
    (husual : ∀ v < kernpage, pgroundup oldsz ≤ v → pteOf m d v = none) :
    Ensures (allocuvm k d oldsz newsz) m (fun r m' => ∃ o' l',
      (newsz < oldsz ∧ r = oldsz ∧ m' = m ∧ o' = o ∧ l' = l) ∨
      (oldsz ≤ newsz ∧ newsz < kernbase ∧ r = newsz ∧
        Filled k d zeroed (pgroundup oldsz) (pgroundup newsz) m o l m' o' l') ∨
      (r = 0 ∧ Undone k d m o m' o' l' ∧
        (kernbase ≤ newsz ∨
          RanOut k d zeroed (pgroundup oldsz) (pgroundup newsz) m o l))) fun _ => False := by
  have hbase : kernbase = 2147483648 := rfl
  have hkern : kernpage = 524288 := rfl
  unfold allocuvm
  by_cases hlarge : newsz ≥ kernbase
  · rw [if_pos hlarge, ensures_pure]
    refine ⟨o, l, Or.inr (Or.inr ⟨rfl, ⟨ho, ?_, ?_, ?_, rfl⟩, Or.inl hlarge⟩)⟩
    · exact fun _ _ => rfl
    · exact fun _ hp => Or.inl hp
    · exact fun _ _ _ _ => rfl
  · rw [if_neg hlarge]
    by_cases hsmall : newsz < oldsz
    · rw [if_pos hsmall, ensures_pure]
      exact ⟨o, l, Or.inl ⟨hsmall, rfl, rfl, rfl, rfl⟩⟩
    · rw [if_neg hsmall]
      have hmono : pgroundup oldsz ≤ pgroundup newsz := by
        simp only [pgroundup]
        omega
      have hpages : pgroundup newsz ≤ kernpage := by
        simp only [pgroundup]
        omega
      have hlast : pgroundup newsz =
          pgroundup oldsz + (pgroundup newsz - pgroundup oldsz) := by omega
      refine (allocLoop_spec ho hd (by omega) hlast (le_refl _)
        (fun v hle hlt => husual v (by omega) hle) (Filled.start ho _)).post ?_
      rintro r m' ⟨o', l', ⟨rfl, hf⟩ | ⟨rfl, hu, hcause⟩⟩
      · exact ⟨o', l', Or.inr (Or.inl ⟨by omega, by omega, rfl, hf⟩)⟩
      · exact ⟨o', l', Or.inr (Or.inr ⟨rfl, hu, Or.inr hcause⟩)⟩

end Xv6Kernel.Vm
