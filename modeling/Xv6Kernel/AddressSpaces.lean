import Xv6Kernel.PageRoles

/-!
# What the functions of `vm.c` do to an address space

An address space is seen through its entries: `pteOf` is the entry of a virtual page, if it
is present.  Each function is given by what it does to the entries, by the roles that the
pages have afterwards, and by the pages whose words it leaves alone.
-/

namespace Xv6Kernel.Vm

open TraceExecution StateHoare Function PhysMem List

def pteOf (m : PhysMem) (d v : ℕ) : Option ℕ :=
  if v < 2 ^ 20 ∧ pteP (m.word d (v / 1024)) = true ∧
      pteP (m.word (pteAddr (m.word d (v / 1024))) (v % 1024)) = true then
    some (m.word (pteAddr (m.word d (v / 1024))) (v % 1024))
  else none

theorem pteOf_eq_some {m : PhysMem} {d v w : ℕ} :
    pteOf m d v = some w ↔ v < 2 ^ 20 ∧ pteP (m.word d (v / 1024)) = true ∧ pteP w = true ∧
      m.word (pteAddr (m.word d (v / 1024))) (v % 1024) = w := by
  simp only [pteOf, Option.ite_none_right_eq_some, Option.some.injEq]
  grind

def tableCount (m : PhysMem) (d : ℕ) : ℕ :=
  ((Finset.range 1024).filter fun i => pteP (m.word d i) = true).card

theorem tableCount_congr {m m' : PhysMem} {d : ℕ} (hword : m'.word d = m.word d) :
    tableCount m' d = tableCount m d := by
  rw [tableCount, tableCount, hword]

section Entries

variable {k : KernelImage} {m m' : PhysMem} {o : ℕ → Role} {l : List ℕ} {d p t v w : ℕ}
  {h : Holder}

theorem Owned.pteOf_congr (ho : Owned k m o l) (hd : o d = .dir h)
    (hword : ∀ q, q = d ∨ (∃ i, o q = .table d i) → m'.word q = m.word q) :
    pteOf m' d = pteOf m d := by
  funext v
  simp only [pteOf, hword d (Or.inl rfl)]
  by_cases hpde : v < 2 ^ 20 ∧ pteP (m.word d (v / 1024)) = true
  · have ht := ho.tables d h (v / 1024) hd (by omega) hpde.2
    rw [hword _ (Or.inr ⟨_, ht⟩)]
  · rw [if_neg (by tauto), if_neg (by tauto)]

theorem Owned.pteOf_setWord (ho : Owned k m o l) (hd : o d = .dir h) (hv : v < 2 ^ 20)
    (ht : o t = .table d (v / 1024)) (w : ℕ) : pteOf (m.setWord t (v % 1024) w) d =
      update (pteOf m d) v (if pteP w then some w else none) := by
  have htd : d ≠ t := by
    rintro rfl
    simp [ht] at hd
  have hmd : (m.setWord t (v % 1024) w).word d = m.word d := by simp [htd]
  obtain ⟨-, -, hpresent, haddr⟩ := ho.tabled t d _ ht
  funext v'
  by_cases heq : v' = v
  · subst v'
    have hself : (m.setWord t (v % 1024) w).word t (v % 1024) = w := by simp
    rw [update_self, pteOf, hmd, haddr, hself]
    simp only [hv, hpresent, true_and]
  · rw [update_of_ne heq, pteOf, pteOf, hmd]
    by_cases hpde : v' < 2 ^ 20 ∧ pteP (m.word d (v' / 1024)) = true
    · have ht' := ho.tables d h (v' / 1024) hd (by omega) hpde.2
      have hsame : (m.setWord t (v % 1024) w).word (pteAddr (m.word d (v' / 1024))) (v' % 1024) =
          m.word (pteAddr (m.word d (v' / 1024))) (v' % 1024) := by
        rw [setWord_apply, if_neg]
        rintro ⟨htable, hj⟩
        rw [htable, ht] at ht'
        have hindex : v / 1024 = v' / 1024 := by simpa using ht'
        omega
      rw [hsame]
    · rw [if_neg (by tauto), if_neg (by tauto)]

theorem Owned.frame_of_pte (ho : Owned k m o l) (hd : o d = .dir h) (hv : v < kernpage)
    (hpte : pteOf m d v = some w) : o (pteAddr w) = .frame d v := by
  have hkern : kernpage = 524288 := rfl
  obtain ⟨-, hpde, hw, rfl⟩ := pteOf_eq_some.mp hpte
  have ht := ho.tables d h (v / 1024) hd (by omega) hpde
  have hframe := ho.frames _ d (v / 1024) (v % 1024) ht (by omega) (by omega) hw
  rwa [Nat.div_add_mod] at hframe

theorem Owned.pte_of_frame (ho : Owned k m o l) (hp : o p = .frame d v) :
    v < kernpage ∧ ∃ w, pteOf m d v = some w ∧ pteAddr w = p := by
  have hkern : kernpage = 524288 := rfl
  obtain ⟨hv, t, ht, hpresent, haddr⟩ := ho.framed p d v hp
  obtain ⟨-, -, hpde, htable⟩ := ho.tabled t d _ ht
  refine ⟨hv, _, pteOf_eq_some.mpr ⟨by omega, hpde, hpresent, ?_⟩, haddr⟩
  rw [htable]

end Entries

/-- The pages that are not in `l'` any more were taken, with one request each. -/
def Granted (m : PhysMem) (l : List ℕ) (m' : PhysMem) (l' : List ℕ) : Prop :=
  m'.refuse = m.refuse ∧ ∃ n ≤ l.length, l' = l.drop n ∧ m'.asked = m.asked + n ∧
    ∀ j < n, m.refuse (m.asked + j) = false

def Stuck (m : PhysMem) (l l' : List ℕ) : Prop :=
  ∃ n ≤ l.length, l' = l.drop n ∧ (∀ j < n, m.refuse (m.asked + j) = false) ∧
    (l' = [] ∨ m.refuse (m.asked + n) = true)

section Requests

variable {k : KernelImage} {m m' m'' : PhysMem} {o : ℕ → Role} {l l' l'' : List ℕ} {d p v : ℕ}
  {E : PhysMem → Prop}

theorem Granted.refl (m : PhysMem) (l : List ℕ) : Granted m l m l :=
  ⟨rfl, 0, Nat.zero_le _, rfl, rfl, fun _ hj => absurd hj (Nat.not_lt_zero _)⟩

theorem granted_add {n n' : ℕ} (hn : ∀ j < n, m.refuse (m.asked + j) = false)
    (hn' : ∀ j < n', m.refuse (m.asked + n + j) = false) :
    ∀ j < n + n', m.refuse (m.asked + j) = false := by
  intro j hj
  by_cases hlt : j < n
  · exact hn j hlt
  · have hshift := hn' (j - n) (by omega)
    rwa [show m.asked + n + (j - n) = m.asked + j by omega] at hshift

theorem Granted.trans (hg : Granted m l m' l') (hg' : Granted m' l' m'' l'') :
    Granted m l m'' l'' := by
  obtain ⟨hrefuse, n, hle, rfl, hasked, hall⟩ := hg
  obtain ⟨hrefuse', n', hle', rfl, hasked', hall'⟩ := hg'
  rw [hrefuse, hasked] at hall'
  rw [length_drop] at hle'
  exact ⟨hrefuse'.trans hrefuse, n + n', by omega, by rw [drop_drop], by omega,
    granted_add hall hall'⟩

theorem Granted.stuck (hg : Granted m l m' l') (hs : Stuck m' l' l'') : Stuck m l l'' := by
  obtain ⟨hrefuse, n, hle, rfl, hasked, hall⟩ := hg
  obtain ⟨n', hle', rfl, hall', hlast⟩ := hs
  rw [hrefuse, hasked] at hall' hlast
  rw [length_drop] at hle'
  refine ⟨n + n', by omega, by rw [drop_drop], granted_add hall hall', ?_⟩
  rwa [Nat.add_assoc] at hlast

theorem Stuck.cause (hs : Stuck m l l') : l' = [] ∨ ∃ n, m.refuse n = true := by
  obtain ⟨n, -, -, -, hlast⟩ := hs
  exact hlast.imp_right fun hrefused => ⟨_, hrefused⟩

theorem kalloc_spec (ho : Owned k m o l) :
    Ensures kalloc m (fun r m' => m'.word = m.word ∧
      match r with
      | none => Owned k m' o l ∧ Stuck m l l
      | some p => ∃ rest, l = p :: rest ∧ Owned k m' (update o p .held) rest ∧
          Granted m l m' rest) E := by
  unfold kalloc
  simp only [ensures_bind, ensures_get, ensures_modify]
  have hnone : ∀ j < 0, m.refuse (m.asked + j) = false := fun _ hj => absurd hj (Nat.not_lt_zero _)
  by_cases hrefuse : m.refuse m.asked = true
  · rw [if_pos hrefuse, ensures_pure]
    refine ⟨rfl, ?_, 0, Nat.zero_le _, rfl, hnone, Or.inr hrefuse⟩
    exact ho.of_fits (ho.toFits.congr fun _ _ => rfl) (fun _ => Iff.rfl) (fun _ => id) rfl
      fun _ _ => rfl
  · rw [if_neg hrefuse]
    cases l with
    | nil =>
      have hempty : m.freelist = none := ho.linked
      rw [hempty]
      simp only [ensures_pure]
      refine ⟨trivial, ?_, 0, Nat.zero_le _, rfl, hnone, Or.inl rfl⟩
      exact ho.of_fits (ho.toFits.congr fun _ _ => rfl) (fun _ => Iff.rfl) (fun _ => id)
        hempty.symm fun _ _ => rfl
    | cons p rest =>
      have hsome : m.freelist = some p := ho.linked.1
      rw [hsome]
      simp only [ensures_bind, ensures_modify, ensures_pure]
      refine ⟨trivial, rest, rfl, ho.pop _, rfl, 1, by simp, rfl, rfl, ?_⟩
      intro j hj
      obtain rfl : j = 0 := by omega
      exact eq_false_of_ne_true hrefuse

theorem kfree_ensures {Q : Unit → PhysMem → Prop} (husable : k.stop ≤ p ∧ p < phystop) :
    Ensures (kfree k p) m Q E ↔ Q () (m.push p) := by
  have hcond : ¬ (p < k.stop ∨ phystop ≤ p) := by omega
  rw [kfree, if_neg hcond, ensures_modify]

end Requests

/-! ## New tables and new pages -/

/-- The address space `d` has grown: pages were taken from the free list for it, `used` of
them for other things than tables, and there are tables for the virtual pages `new`. -/
structure Grown (k : KernelImage) (d : ℕ) (new : ℕ → Prop) (used : ℕ) (m : PhysMem) (o : ℕ → Role)
    (l : List ℕ) (m' : PhysMem) (o' : ℕ → Role) (l' : List ℕ) : Prop where
  owned : Owned k m' o' l'
  roles : ∀ p, o p ≠ .free → o' p = o p
  taken : ∀ p, o p = .free → o' p = .free ∨ (∃ i, o' p = .table d i) ∨ ∃ v, o' p = .frame d v
  words : ∀ p, o p ≠ .free → p ≠ d → (∀ i, o p ≠ .table d i) → m'.word p = m.word p
  count : l'.length + tableCount m' d + used = l.length + tableCount m d
  pdes : ∀ i < 1024, pteP (m'.word d i) = true →
    pteP (m.word d i) = true ∨ ∃ v, new v ∧ v / 1024 = i

section Growing

variable {k : KernelImage} {m m' m'' : PhysMem} {o o' o'' : ℕ → Role} {l l' l'' : List ℕ}
  {d p t v w used used' : ℕ} {h : Holder} {new new' : ℕ → Prop} {E : PhysMem → Prop}

theorem Grown.same (ho : Owned k m' o l) (hword : m'.word = m.word) (new : ℕ → Prop) :
    Grown k d new 0 m o l m' o l where
  owned := ho
  roles := fun _ _ => rfl
  taken := fun _ hp => Or.inl hp
  words := fun p _ _ _ => congrFun hword p
  count := by rw [tableCount_congr (congrFun hword d), Nat.add_zero]
  pdes := fun i _ hpresent => Or.inl (by rwa [hword] at hpresent)

section

variable (hg : Grown k d new used m o l m' o' l')

include hg

theorem Grown.trans (hg' : Grown k d new' used' m' o' l' m'' o'' l'') :
    Grown k d (fun v => new v ∨ new' v) (used + used') m o l m'' o'' l'' where
  owned := hg'.owned
  roles := fun p hp => (hg'.roles p (hg.roles p hp ▸ hp)).trans (hg.roles p hp)
  taken := by
    intro p hp
    rcases hg.taken p hp with hfree | ⟨i, htable⟩ | ⟨v, hframe⟩
    · exact hg'.taken p hfree
    · exact Or.inr (Or.inl ⟨i, (hg'.roles p (by simp [htable])).trans htable⟩)
    · exact Or.inr (Or.inr ⟨v, (hg'.roles p (by simp [hframe])).trans hframe⟩)
  words := by
    intro p hp hpd htable
    have hrole := hg.roles p hp
    exact (hg'.words p (hrole ▸ hp) hpd (hrole ▸ htable)).trans (hg.words p hp hpd htable)
  count := by
    have hcount := hg.count
    have hcount' := hg'.count
    omega
  pdes := by
    intro i hi hpresent
    rcases hg'.pdes i hi hpresent with hpresent | ⟨v, hv, hvi⟩
    · rcases hg.pdes i hi hpresent with hpresent | ⟨v, hv, hvi⟩
      · exact Or.inl hpresent
      · exact Or.inr ⟨v, Or.inl hv, hvi⟩
    · exact Or.inr ⟨v, Or.inr hv, hvi⟩

theorem Grown.mono (hnew : ∀ v, new v → new' v) : Grown k d new' used m o l m' o' l' where
  owned := hg.owned
  roles := hg.roles
  taken := hg.taken
  words := hg.words
  count := hg.count
  pdes := fun i hi hpresent => (hg.pdes i hi hpresent).imp_right fun ⟨v, hv, hvi⟩ =>
    ⟨v, hnew v hv, hvi⟩

theorem Grown.dir (hd : o d = .dir h) : o' d = .dir h :=
  (hg.roles d (by simp [hd])).trans hd

theorem Grown.pteOf_other {c : ℕ} {h' : Holder} (ho : Owned k m o l) (hd : o d = .dir h)
    (hc : o c = .dir h') (hne : c ≠ d) : pteOf m' c = pteOf m c := by
  refine ho.pteOf_congr hc ?_
  rintro q (rfl | ⟨i, hq⟩)
  · exact hg.words q (by simp [hc]) hne (by simp [hc])
  · refine hg.words q (by simp [hq]) ?_ ?_
    · rintro rfl
      simp [hd] at hq
    · intro j hj
      rw [hq] at hj
      simp only [Role.table.injEq] at hj
      exact hne hj.1

end

theorem tableCount_add {i w : ℕ} (hi : i < 1024) (habsent : pteP (m.word d i) = false)
    (hw : pteP w = true) (hword : m'.word d = update (m.word d) i w) :
    tableCount m' d = tableCount m d + 1 := by
  have hinsert : ((Finset.range 1024).filter fun j => pteP (m'.word d j) = true) =
      insert i ((Finset.range 1024).filter fun j => pteP (m.word d j) = true) := by
    ext j
    rw [hword]
    by_cases hj : j = i
    · subst j
      simp [hi, hw]
    · simp [hj]
  rw [tableCount, hinsert, Finset.card_insert_of_notMem, tableCount]
  simp [habsent]

theorem Grown.link {m₁ : PhysMem} (ho : Owned k m o (t :: l)) (hd : o d = .dir h)
    (hv : v < 2 ^ 20) (habsent : pteP (m.word d (v / 1024)) = false)
    (hword : m₁.word = m.word) (ho₁ : Owned k m₁ (update o t .held) l)
    (hm' : m' = (m₁.fill t fun _ => 0).setWord d (v / 1024) (entry t permWU)) :
    Grown k d (· = v) 0 m o (t :: l) m' (update o t (.table d (v / 1024))) l ∧
      pteOf m' d = pteOf m d := by
  have hfree : o t = .free := (ho.free_iff t).mp mem_cons_self
  have hdt : d ≠ t := by
    rintro rfl
    simp [hd] at hfree
  have hi : v / 1024 < 1024 := by omega
  have hmd : m'.word d = update (m.word d) (v / 1024) (entry t permWU) := by
    simp [hm', hword, hdt]
  have hmt : m'.word t = fun _ => 0 := by simp [hm', hdt.symm]
  have hmp : ∀ p, p ≠ d → p ≠ t → m'.word p = m.word p := by
    intro p hpd hpt
    simp [hm', hpd, hpt, hword]
  have haddr : pteAddr (entry t permWU) = t := pteAddr_entry (by decide)
  have howned : Owned k m' (update o t (.table d (v / 1024))) l := by
    have hfilled := ho₁.fill (p := t) (by simp [Role.Plain]) fun _ => 0
    have hlinked := hfilled.link (d := d) (t := t) (i := v / 1024) (w := entry t permWU) (h := h)
      (by simp [hdt, hd]) (by simp) hi (by simpa [hdt, hword] using habsent) (by simp)
      ⟨pteP_entry .., haddr⟩
    rw [update_idem, ← hm'] at hlinked
    exact hlinked
  refine ⟨⟨howned, ?_, ?_, ?_, ?_, ?_⟩, ?_⟩
  · intro p hp
    refine update_of_ne ?_ ..
    rintro rfl
    exact hp hfree
  · intro p hp
    by_cases hpt : p = t
    · exact Or.inr (Or.inl ⟨v / 1024, by simp [hpt]⟩)
    · exact Or.inl (by rwa [update_of_ne hpt])
  · intro p hp hpd _
    refine hmp p hpd ?_
    rintro rfl
    exact hp hfree
  · rw [tableCount_add hi habsent (pteP_entry ..) hmd, length_cons]
    omega
  · intro i hi hpresent
    by_cases heq : i = v / 1024
    · exact Or.inr ⟨v, rfl, heq.symm⟩
    · rw [hmd, update_of_ne heq] at hpresent
      exact Or.inl hpresent
  · funext v'
    simp only [pteOf, hmd]
    by_cases heq : v' / 1024 = v / 1024
    · rw [heq, update_self, haddr, hmt, habsent]
      simp
    · rw [update_of_ne heq]
      by_cases hpde : v' < 2 ^ 20 ∧ pteP (m.word d (v' / 1024)) = true
      · have ht := ho.tables d h (v' / 1024) hd (by omega) hpde.2
        rw [hmp]
        · rintro hsame
          simp [hsame, hd] at ht
        · rintro hsame
          simp [hsame, hfree] at ht
      · rw [if_neg (by tauto), if_neg (by tauto)]

theorem walkpgdir_spec (ho : Owned k m o l) (hd : o d = .dir h) (hv : v < 2 ^ 20) :
    Ensures (walkpgdir d v true) m (fun r m' =>
      match r with
      | none => m'.word = m.word ∧ Owned k m' o l ∧ Stuck m l l ∧
          pteP (m.word d (v / 1024)) = false
      | some (t, j) => j = v % 1024 ∧ ∃ o' l', Grown k d (· = v) 0 m o l m' o' l' ∧
          pteOf m' d = pteOf m d ∧ Granted m l m' l' ∧ o' t = .table d (v / 1024)) E := by
  unfold walkpgdir
  simp only [ensures_bind, ensures_get]
  by_cases hpresent : pteP (m.word d (v / 1024)) = true
  · rw [if_pos hpresent, ensures_pure]
    refine ⟨rfl, o, l, Grown.same ho rfl _, rfl, Granted.refl m l, ?_⟩
    exact ho.tables d h (v / 1024) hd (by omega) hpresent
  · rw [if_neg hpresent, if_pos trivial]
    have habsent := eq_false_of_ne_true hpresent
    simp only [ensures_bind]
    refine (kalloc_spec ho).post ?_
    rintro r m₁ ⟨hword, hresult⟩
    cases r with
    | none =>
      simp only [ensures_pure]
      exact ⟨hword, hresult.1, hresult.2, habsent⟩
    | some t =>
      obtain ⟨rest, rfl, ho₁, hgranted⟩ := hresult
      obtain ⟨hgrown, hptes⟩ := Grown.link ho hd hv habsent hword ho₁ rfl
      simp only [ensures_bind, ensures_modify, ensures_pure]
      exact ⟨trivial, _, rest, hgrown, hptes, hgranted, by simp⟩

theorem Grown.entry (hg : Grown k d new used m o l m' o' l') (hd : o d = .dir h)
    (hv : kernpage ≤ v) (ht : o' t = .table d (v / 1024)) (huser : pteU w = false) :
    Grown k d new used m o l (m'.setWord t (v % 1024) w) o' l' := by
  have hkern : kernpage = 524288 := rfl
  have hd' := hg.dir hd
  have htd : d ≠ t := by
    rintro rfl
    simp [ht] at hd'
  have hmd : (m'.setWord t (v % 1024) w).word d = m'.word d := by simp [htd]
  refine ⟨hg.owned.weaken ht (by omega) fun _ => huser, hg.roles, hg.taken, ?_, ?_, ?_⟩
  · intro p hp hpd htable
    have hpt : p ≠ t := by
      rintro rfl
      exact htable _ ((hg.roles p hp).symm.trans ht)
    rw [word_setWord, update_of_ne hpt]
    exact hg.words p hp hpd htable
  · rw [tableCount_congr hmd]
    exact hg.count
  · rw [hmd]
    exact hg.pdes

theorem mappages_kernel {perm n : ℕ} (ho : Owned k m o l) (hd : o d = .dir h) (hv : kernpage ≤ v)
    (hn : v + n ≤ 2 ^ 20) (habsent : ∀ v', v ≤ v' → v' < v + n → pteOf m d v' = none)
    (hperm : ∀ p, pteU (Vm.entry p perm) = false) :
    Ensures (mappages d perm n v p) m (fun r m' => ∃ o' l',
      Grown k d (fun v' => v ≤ v' ∧ v' < v + n) 0 m o l m' o' l' ∧
      (∀ v', ¬ (v ≤ v' ∧ v' < v + n) → pteOf m' d v' = pteOf m d v') ∧
      if r then Granted m l m' l' ∧ ∀ v', v ≤ v' → v' < v + n → (pteOf m' d v').isSome
      else Stuck m l l') fun _ => False := by
  have hkern : kernpage = 524288 := rfl
  induction n generalizing v p m o l with
  | zero =>
    simp only [mappages, ensures_pure]
    refine ⟨o, l, Grown.same ho rfl _, fun _ _ => trivial, Granted.refl m l, ?_⟩
    intro v' hle hlt
    omega
  | succ n ih =>
    have hv' : v < 2 ^ 20 := by omega
    simp only [mappages, ensures_bind]
    refine (walkpgdir_spec ho hd hv').post ?_
    intro r m₂ hresult
    cases r with
    | none =>
      obtain ⟨hword, ho₂, hstuck, -⟩ := hresult
      simp only [ensures_pure]
      refine ⟨o, l, Grown.same ho₂ hword _, ?_, hstuck⟩
      intro v' _
      rw [pteOf, hword, pteOf]
    | some pte =>
      obtain ⟨t, j⟩ := pte
      obtain ⟨rfl, o₂, l₂, hg, hptes, hgranted, ht⟩ := hresult
      simp only [ensures_bind, ensures_get]
      obtain ⟨-, -, hpde, haddr⟩ := hg.owned.tabled t d _ ht
      have hnot : ¬ pteP (m₂.word t (v % 1024)) = true := by
        intro hpte
        have hsome : pteOf m₂ d v = some _ := pteOf_eq_some.mpr ⟨hv', hpde, hpte, by rw [haddr]⟩
        rw [hptes, habsent v (le_refl v) (by omega)] at hsome
        contradiction
      rw [if_neg hnot]
      simp only [ensures_bind, ensures_modify]
      have hgrown := hg.entry hd hv ht (hperm p)
      have hptes' := hg.owned.pteOf_setWord (hg.dir hd) hv' ht (Vm.entry p perm)
      rw [hptes, pteP_entry, if_pos rfl] at hptes'
      have habsent' : ∀ v', v + 1 ≤ v' → v' < v + 1 + n →
          pteOf (m₂.setWord t (v % 1024) (Vm.entry p perm)) d v' = none := by
        intro v' hle hlt
        rw [hptes', update_of_ne (by omega)]
        exact habsent v' (by omega) (by omega)
      refine (ih hgrown.owned (hgrown.dir hd) (by omega) (by omega) habsent').post ?_
      rintro r m' ⟨o', l', hg', hother, hall⟩
      rw [hptes'] at hother
      refine ⟨o', l', (hgrown.trans hg').mono ?_, ?_, ?_⟩
      · rintro v' (rfl | hrange)
        · omega
        · omega
      · intro v' hout
        rw [hother v' (by omega), update_of_ne (by omega)]
      · cases r with
        | false => exact hgranted.stuck hall
        | true =>
          refine ⟨hgranted.trans hall.1, ?_⟩
          intro v' hle hlt
          by_cases heq : v' = v
          · subst v'
            rw [hother v (by omega), update_self]
            rfl
          · exact hall.2 v' (by omega) (by omega)

/-- Pages are added to the address space `d` from the virtual page `first` on, and `a` is the
next one; entry and contents of each are as `P` says. -/
structure Filled (k : KernelImage) (d : ℕ) (P : ℕ → ℕ → (ℕ → ℕ) → Prop) (first a : ℕ)
    (m : PhysMem) (o : ℕ → Role) (l : List ℕ) (m' : PhysMem) (o' : ℕ → Role) (l' : List ℕ) : Prop
    extends Grown k d (fun v => first ≤ v ∧ v < a) (a - first) m o l m' o' l' where
  granted : Granted m l m' l'
  added : ∀ v, first ≤ v → v < a → ∃ w, pteOf m' d v = some w ∧ o (pteAddr w) = .free ∧
    P v w (m'.word (pteAddr w))
  others : ∀ v, ¬ (first ≤ v ∧ v < a) → pteOf m' d v = pteOf m d v

theorem Filled.start {P : ℕ → ℕ → (ℕ → ℕ) → Prop} (ho : Owned k m o l) (first : ℕ) :
    Filled k d P first first m o l m o l where
  toGrown := by
    rw [Nat.sub_self]
    exact Grown.same ho rfl _
  granted := Granted.refl m l
  added := fun v hle hlt => by omega
  others := fun _ _ => rfl

theorem Filled.page {P : ℕ → ℕ → (ℕ → ℕ) → Prop} {first a perm : ℕ} {m₁ : PhysMem} {content : ℕ → ℕ}
    (hf : Filled k d P first a m o l m' o' (p :: l')) (hd : o d = .dir h) (ha : a < kernpage)
    (hfirst : first ≤ a) (habsent : pteOf m d a = none) (hword : m₁.word = m'.word)
    (ho₁ : Owned k m₁ (update o' p .held) l') (hgranted : Granted m' (p :: l') m₁ l')
    (hperm : perm < 4096) (hP : P a (entry p perm) content) :
    Ensures (mappages d perm 1 a p) (m₁.fill p content) (fun r m'' =>
      if r then ∃ o'' l'', Filled k d P first (a + 1) m o l m'' o'' l''
      else m''.word = update m'.word p content ∧
        Owned k m'' (update o' p .held) l' ∧ Stuck m l l' ∧
        pteP (m'.word d (a / 1024)) = false) fun _ => False := by
  have hkern : kernpage = 524288 := rfl
  have hfree' : o' p = .free := (hf.owned.free_iff p).mp mem_cons_self
  have hfree : o p = .free := by
    by_contra hused
    exact hused ((hf.roles p hused).symm.trans hfree')
  have hd' := hf.dir hd
  have hpd : d ≠ p := by
    rintro rfl
    simp [hd] at hfree
  have ho₂ := ho₁.fill (p := p) (by simp [Role.Plain]) content
  have hd₂ : update o' p .held d = .dir h := by rwa [update_of_ne hpd]
  have hgranted' : Granted m l (m₁.fill p content) l' := hf.granted.trans hgranted
  -- the page itself is in no directory and no table
  have hptes : pteOf (m₁.fill p content) d = pteOf m' d := by
    refine hf.owned.pteOf_congr hd' ?_
    intro q hq
    have hqp : q ≠ p := by
      rintro rfl
      rcases hq with rfl | ⟨i, hq⟩
      · exact hpd rfl
      · simp [hfree'] at hq
    simp [hqp, hword]
  simp only [mappages, ensures_bind]
  refine (walkpgdir_spec ho₂ hd₂ (by omega)).post ?_
  intro r m₂ hresult
  cases r with
  | none =>
    obtain ⟨hword₂, ho₃, hstuck, hpde⟩ := hresult
    simp only [ensures_pure]
    refine ⟨?_, ho₃, hgranted'.stuck hstuck, ?_⟩
    · rw [hword₂, word_fill, hword]
    · rwa [word_fill, update_of_ne hpd, hword] at hpde
  | some pte =>
    obtain ⟨t, j⟩ := pte
    obtain ⟨rfl, o₃, l₃, hg, hptes₂, hgranted₂, ht⟩ := hresult
    simp only [ensures_bind, ensures_get]
    obtain ⟨-, -, hpde, haddr⟩ := hg.owned.tabled t d _ ht
    have hheld : o₃ p = .held := (hg.roles p (by simp)).trans (by simp)
    have hnone : pteOf m₂ d a = none := by
      rw [hptes₂, hptes, hf.others a (by omega)]
      exact habsent
    have hnot : pteP (m₂.word t (a % 1024)) = false := by
      refine eq_false_of_ne_true fun hpte => ?_
      have hsome : pteOf m₂ d a = some _ := pteOf_eq_some.mpr ⟨by omega, hpde, hpte, by rw [haddr]⟩
      rw [hnone] at hsome
      contradiction
    rw [if_neg (by simp [hnot])]
    simp only [ensures_bind, ensures_modify, ensures_pure]
    have howned := hg.owned.map (j := a % 1024) ht (by omega) (by omega) hheld hnot
      ⟨pteP_entry p perm, pteAddr_entry hperm⟩
    rw [Nat.div_add_mod] at howned
    have hptes₃ := hg.owned.pteOf_setWord (hg.dir hd₂) (by omega) ht (Vm.entry p perm)
    rw [pteP_entry, if_pos rfl, hptes₂, hptes] at hptes₃
    have htp : t ≠ p := by
      rintro rfl
      simp [hheld] at ht
    have hdt : d ≠ t := by
      rintro rfl
      rw [hg.dir hd₂] at ht
      simp at ht
    have hmd₁ : (m₁.fill p content).word d = m'.word d := by simp [hpd, hword]
    have hmd₂ : (m₂.setWord t (a % 1024) (Vm.entry p perm)).word d = m₂.word d := by simp [hdt]
    have hfilled : ∀ q, o' q ≠ .free → q ≠ d → (∀ i, o' q ≠ .table d i) →
        (m₂.setWord t (a % 1024) (Vm.entry p perm)).word q = m'.word q := by
      intro q hq hqd hqt
      have hqp : q ≠ p := by
        rintro rfl
        exact hq hfree'
      have hne : q ≠ t := by
        rintro rfl
        have hrole := hg.roles q (by rwa [update_of_ne hqp])
        rw [ht, update_of_ne hqp] at hrole
        exact hqt _ hrole.symm
      rw [word_setWord, update_of_ne hne,
        hg.words q (by rwa [update_of_ne hqp]) hqd (by rwa [update_of_ne hqp])]
      simp [hqp, hword]
    have hself : (m₂.setWord t (a % 1024) (Vm.entry p perm)).word p = content := by
      rw [word_setWord, update_of_ne htp.symm, hg.words p (by simp) hpd.symm (by simp)]
      simp
    refine ⟨_, l₃, ⟨⟨howned, ?_, ?_, ?_, ?_, ?_⟩, hgranted'.trans hgranted₂, ?_, ?_⟩⟩
    · intro q hq
      have hqp : q ≠ p := by
        rintro rfl
        exact hq hfree
      have hrole := hf.roles q hq
      rw [update_of_ne hqp, hg.roles q (by rw [update_of_ne hqp, hrole]; exact hq),
        update_of_ne hqp, hrole]
    · intro q hq
      by_cases hqp : q = p
      · exact Or.inr (Or.inr ⟨a, by simp [hqp]⟩)
      · rw [update_of_ne hqp]
        have hkept : o' q ≠ .free → o₃ q = o' q := fun hused => by
          rw [hg.roles q (by rwa [update_of_ne hqp]), update_of_ne hqp]
        rcases hf.taken q hq with hstill | ⟨i, htable⟩ | ⟨v, hframe⟩
        · exact hg.taken q (by rwa [update_of_ne hqp])
        · exact Or.inr (Or.inl ⟨i, (hkept (by simp [htable])).trans htable⟩)
        · exact Or.inr (Or.inr ⟨v, (hkept (by simp [hframe])).trans hframe⟩)
    · intro q hq hqd hqt
      have hrole := hf.roles q hq
      rw [hfilled q (by rwa [hrole]) hqd (by rwa [hrole])]
      exact hf.words q hq hqd hqt
    · have hcount := hf.count
      have hcount' := hg.count
      rw [length_cons] at hcount
      rw [tableCount_congr hmd₁] at hcount'
      rw [tableCount_congr hmd₂]
      omega
    · intro i hi hpresent
      rw [hmd₂] at hpresent
      rcases hg.pdes i hi hpresent with hpresent | ⟨v, rfl, hvi⟩
      · rw [hmd₁] at hpresent
        refine (hf.pdes i hi hpresent).imp_right ?_
        rintro ⟨v, hv, hvi⟩
        exact ⟨v, by omega, hvi⟩
      · exact Or.inr ⟨v, by omega, hvi⟩
    · intro v hle hlt
      rw [hptes₃]
      by_cases heq : v = a
      · subst v
        refine ⟨_, update_self .., ?_, ?_⟩
        · rwa [pteAddr_entry hperm]
        · rwa [pteAddr_entry hperm, hself]
      · rw [update_of_ne heq]
        obtain ⟨w, hpte, hwfree, hw⟩ := hf.added v hle (by omega)
        refine ⟨w, hpte, hwfree, ?_⟩
        have hframe := hf.owned.frame_of_pte hd' (by omega) hpte
        rw [hfilled _ (by simp [hframe]) ?_ (by simp [hframe])]
        · exact hw
        · rintro heq'
          simp [heq', hd'] at hframe
    · intro v hout
      rw [hptes₃, update_of_ne (by omega)]
      exact hf.others v (by omega)

end Growing

section Shrinking

variable {k : KernelImage} {m m' m'' : PhysMem} {o o' o'' : ℕ → Role} {l l' l'' : List ℕ}
  {d p t v w : ℕ} {h : Holder} {old old' : ℕ → Prop} {E : PhysMem → Prop}

/-- The virtual pages `old` of the address space `d` were freed; its tables are still there. -/
structure Shrunk (k : KernelImage) (d : ℕ) (old : ℕ → Prop) (m : PhysMem) (o : ℕ → Role)
    (m' : PhysMem) (o' : ℕ → Role) (l' : List ℕ) : Prop where
  owned : Owned k m' o' l'
  roles : ∀ p, o' p = o p ∨ ((∃ v, old v ∧ o p = .frame d v) ∧ o' p = .free)
  words : ∀ p, o' p ≠ .free → (∀ i, o p ≠ .table d i) → m'.word p = m.word p
  gone : ∀ v, old v → pteOf m' d v = none
  kept : ∀ v, ¬ old v → pteOf m' d v = pteOf m d v

theorem Shrunk.dir (hs : Shrunk k d old m o m' o' l') (hd : o d = .dir h) : o' d = .dir h := by
  rcases hs.roles d with hrole | ⟨⟨v, -, hframe⟩, -⟩
  · exact hrole.trans hd
  · simp [hd] at hframe

theorem Shrunk.trans (hs : Shrunk k d old m o m' o' l') (hs' : Shrunk k d old' m' o' m'' o'' l'') :
    Shrunk k d (fun v => old v ∨ old' v) m o m'' o'' l'' where
  owned := hs'.owned
  roles := by
    intro p
    rcases hs.roles p with hrole | ⟨⟨v, hv, hframe⟩, hfree⟩
    · rcases hs'.roles p with hrole' | ⟨⟨v, hv, hframe⟩, hfree⟩
      · exact Or.inl (hrole'.trans hrole)
      · exact Or.inr ⟨⟨v, Or.inr hv, hrole.symm.trans hframe⟩, hfree⟩
    · rcases hs'.roles p with hrole' | ⟨⟨v', -, hframe'⟩, -⟩
      · exact Or.inr ⟨⟨v, Or.inl hv, hframe⟩, hrole'.trans hfree⟩
      · simp [hfree] at hframe'
  words := by
    intro p hp htable
    have hused : o' p ≠ .free := by
      rcases hs'.roles p with hrole | ⟨-, hfree⟩
      · rwa [← hrole]
      · exact absurd hfree hp
    have htable' : ∀ i, o' p ≠ .table d i := by
      rcases hs.roles p with hrole | ⟨-, hfree⟩
      · rwa [hrole]
      · exact absurd hfree hused
    exact (hs'.words p hp htable').trans (hs.words p hused htable)
  gone := by
    intro v hv
    by_cases hnew : old' v
    · exact hs'.gone v hnew
    · rw [hs'.kept v hnew]
      exact hs.gone v (hv.resolve_right hnew)
  kept := by
    intro v hv
    rw [not_or] at hv
    exact (hs'.kept v hv.2).trans (hs.kept v hv.1)

theorem Shrunk.mono (hs : Shrunk k d old m o m' o' l') (hsub : ∀ v, old v → old' v)
    (hold : ∀ v, old' v → ¬ old v → pteOf m d v = none) : Shrunk k d old' m o m' o' l' where
  owned := hs.owned
  roles := fun p => (hs.roles p).imp_right fun ⟨⟨v, hv, hframe⟩, hfree⟩ =>
    ⟨⟨v, hsub v hv, hframe⟩, hfree⟩
  words := hs.words
  gone := by
    intro v hv
    by_cases hin : old v
    · exact hs.gone v hin
    · rw [hs.kept v hin]
      exact hold v hv hin
  kept := fun v hv => hs.kept v fun hin => hv (hsub v hin)

theorem Shrunk.none (ho : Owned k m o l) (hold : ∀ v, old v → pteOf m d v = none) :
    Shrunk k d old m o m o l where
  owned := ho
  roles := fun _ => Or.inl rfl
  words := fun _ _ _ => rfl
  gone := hold
  kept := fun _ _ => rfl

theorem Shrunk.page (ho : Owned k m o l) (hd : o d = .dir h) (hv : v < kernpage)
    (ht : o t = .table d (v / 1024)) (hpresent : pteP (m.word t (v % 1024)) = true) :
    k.stop ≤ pteAddr (m.word t (v % 1024)) ∧ pteAddr (m.word t (v % 1024)) < phystop ∧
    ∃ o' l', Shrunk k d (· = v) m o ((m.push (pteAddr (m.word t (v % 1024)))).setWord t (v % 1024) 0)
      o' l' := by
  have hkern : kernpage = 524288 := rfl
  have hframe := ho.frames t d (v / 1024) (v % 1024) ht (by omega) (by omega) hpresent
  obtain ⟨p, hp⟩ : ∃ p, pteAddr (m.word t (v % 1024)) = p := ⟨_, rfl⟩
  rw [hp, Nat.div_add_mod] at hframe
  rw [hp]
  obtain ⟨hlow, hhigh⟩ := ho.usable p (by simp [hframe])
  refine ⟨hlow, hhigh, ?_⟩
  have htp : t ≠ p := by
    rintro rfl
    simp [ht] at hframe
  have hdp : d ≠ p := by
    rintro rfl
    simp [hd] at hframe
  -- the model frees the page first; clearing the entry first gives the same memory
  rw [m.push_setWord_comm p htp]
  have hcleared := ho.clear ht hv hpresent hp
  have howned := hcleared.push (p := p) (by simp [Role.Mapped]) (by simp) ⟨hlow, hhigh⟩
  rw [update_idem] at howned
  have hptes : pteOf ((m.setWord t (v % 1024) 0).push p) d =
      update (pteOf m d) v Option.none := by
    have hset := ho.pteOf_setWord hd (by omega) ht 0
    rw [pteP_zero, if_neg (by simp)] at hset
    rw [← hset]
    refine hcleared.pteOf_congr (h := h) (by rwa [update_of_ne hdp]) ?_
    intro q hq
    refine word_push_of_ne _ _ ?_
    rintro rfl
    rcases hq with rfl | ⟨i, hq⟩
    · exact hdp rfl
    · simp at hq
  refine ⟨update o p .free, p :: l, howned, ?_, ?_, ?_, ?_⟩
  · intro q
    by_cases hqp : q = p
    · subst q
      exact Or.inr ⟨⟨v, rfl, hframe⟩, by simp⟩
    · exact Or.inl (update_of_ne hqp ..)
  · intro q hq htable
    have hqp : q ≠ p := by
      rintro rfl
      simp at hq
    have hqt : q ≠ t := by
      rintro rfl
      exact htable _ ht
    rw [word_push_of_ne _ _ hqp]
    simp [hqt]
  · rintro v' rfl
    rw [hptes, update_self]
  · intro v' hne
    rw [hptes, update_of_ne hne]

def walk (m : PhysMem) (d v : ℕ) : Option (ℕ × ℕ) :=
  if pteP (m.word d (v / 1024)) = true then some (pteAddr (m.word d (v / 1024)), v % 1024)
  else none

theorem walkpgdir_ensures {Q : Option (ℕ × ℕ) → PhysMem → Prop} :
    Ensures (walkpgdir d v false) m Q E ↔ Q (walk m d v) m := by
  unfold walkpgdir walk
  simp only [ensures_bind, ensures_get]
  by_cases hpresent : pteP (m.word d (v / 1024)) = true
  · rw [if_pos hpresent, if_pos hpresent, ensures_pure]
  · rw [if_neg hpresent, if_neg hpresent]
    simp only [Bool.false_eq_true, if_false, ensures_pure]

theorem walk_of_pteOf (hpte : pteOf m d v = some w) :
    walk m d v = some (pteAddr (m.word d (v / 1024)), v % 1024) ∧
      m.word (pteAddr (m.word d (v / 1024))) (v % 1024) = w := by
  obtain ⟨-, hpde, -, hw⟩ := pteOf_eq_some.mp hpte
  exact ⟨if_pos hpde, hw⟩

theorem deallocLoop_spec {last a : ℕ} (ho : Owned k m o l) (hd : o d = .dir h)
    (hlast : last ≤ kernpage) :
    Ensures (deallocLoop k d last a) m (fun _ m' => ∃ o' l',
      Shrunk k d (fun v => a ≤ v ∧ v < last) m o m' o' l') fun _ => False := by
  have hkern : kernpage = 524288 := rfl
  induction hn : last - a using Nat.strong_induction_on generalizing a m o l with
  | _ n ih =>
    rw [deallocLoop]
    by_cases ha : a < last
    · rw [if_pos ha]
      simp only [ensures_bind]
      rw [walkpgdir_ensures, walk]
      by_cases hpde : pteP (m.word d (a / 1024)) = true
      · rw [if_pos hpde]
        have ht := ho.tables d h (a / 1024) hd (by omega) hpde
        generalize htable : pteAddr (m.word d (a / 1024)) = t at ht
        simp only [ensures_bind, ensures_get]
        by_cases hpte : pteP (m.word t (a % 1024)) = true
        · rw [if_pos hpte]
          obtain ⟨hlow, hhigh, o₁, l₁, hs⟩ := Shrunk.page ho hd (by omega) ht hpte
          have hstop := k.data_gt
          have hle := k.data_le
          have hne : pteAddr (m.word t (a % 1024)) ≠ 0 := by omega
          rw [if_neg hne]
          simp only [ensures_bind]
          rw [kfree_ensures ⟨hlow, hhigh⟩, ensures_modify]
          refine (ih (last - (a + 1)) (by omega) hs.owned (hs.dir hd) rfl).post ?_
          rintro - m' ⟨o', l', hs'⟩
          refine ⟨o', l', (hs.trans hs').mono ?_ ?_⟩
          · intro v hv
            omega
          · intro v hin hout
            omega
        · rw [if_neg hpte]
          refine (ih (last - (a + 1)) (by omega) ho hd rfl).post ?_
          rintro - m' ⟨o', l', hs'⟩
          refine ⟨o', l', hs'.mono ?_ ?_⟩
          · intro v hv
            omega
          · intro v hin hout
            obtain rfl : v = a := by omega
            rw [pteOf, htable, if_neg (by tauto)]
      · rw [if_neg hpde]
        refine (ih (last - (a / 1024 + 1) * 1024) (by omega) ho hd rfl).post ?_
        rintro - m' ⟨o', l', hs'⟩
        refine ⟨o', l', hs'.mono ?_ ?_⟩
        · intro v hv
          omega
        · intro v hin hout
          have hindex : v / 1024 = a / 1024 := by omega
          rw [pteOf, hindex, if_neg (by tauto)]
    · rw [if_neg ha, ensures_pure]
      refine ⟨o, l, Shrunk.none ho ?_⟩
      intro v hv
      omega

theorem deallocuvm_spec (oldsz newsz : ℕ) (ho : Owned k m o l) (hd : o d = .dir h)
    (hold : oldsz ≤ kernbase) :
    Ensures (deallocuvm k d oldsz newsz) m (fun r m' => r = min oldsz newsz ∧ ∃ o' l',
      Shrunk k d (fun v => pgroundup newsz ≤ v ∧ v < pgroundup oldsz) m o m' o' l')
      fun _ => False := by
  have hbase : kernbase = 2147483648 := rfl
  have hkern : kernpage = 524288 := rfl
  unfold deallocuvm
  by_cases hle : newsz ≥ oldsz
  · rw [if_pos hle, ensures_pure]
    refine ⟨(min_eq_left hle).symm, o, l, Shrunk.none ho ?_⟩
    intro v hv
    simp only [pgroundup] at hv
    omega
  · rw [if_neg hle]
    simp only [ensures_bind, ensures_pure]
    have hlast : pgroundup oldsz ≤ kernpage := by
      rw [pgroundup]
      omega
    refine (deallocLoop_spec ho hd hlast).post ?_
    rintro - m' hshrunk
    exact ⟨(min_eq_right (by omega)).symm, hshrunk⟩

theorem deallocuvm_all (ho : Owned k m o l) (hd : o d = .dir h) :
    Ensures (deallocuvm k d kernbase 0) m (fun _ m' => ∃ o' l',
      Shrunk k d (fun v => v < kernpage) m o m' o' l') fun _ => False := by
  have hbase : kernbase ≤ kernbase := Nat.le_refl kernbase
  have hlast : pgroundup kernbase = kernpage := rfl
  refine (deallocuvm_spec kernbase 0 ho hd hbase).post ?_
  intro r m₁ hpost
  rw [hlast] at hpost
  obtain ⟨o', l', hs⟩ := hpost.2
  refine ⟨o', l', hs.mono (fun v hv => hv.2) ?_⟩
  intro v hv hnot
  exact absurd ⟨Nat.zero_le v, hv⟩ hnot

/-- The address space `d` is gone. -/
structure Freed (k : KernelImage) (d : ℕ) (m : PhysMem) (o : ℕ → Role) (m' : PhysMem)
    (o' : ℕ → Role) (l' : List ℕ) : Prop where
  owned : Owned k m' o' l'
  gone : ∀ p, PartOf o d p → o' p = .free
  roles : ∀ p, ¬ PartOf o d p → o' p = o p
  words : ∀ p, ¬ PartOf o d p → o p ≠ .free → m'.word p = m.word p

/-- The tables are freed one after another; `n` is the next one. -/
structure Freeing (k : KernelImage) (d n : ℕ) (m : PhysMem) (o : ℕ → Role) (m' : PhysMem)
    (o' : ℕ → Role) (l' : List ℕ) : Prop where
  owned : Owned k m' o' l'
  pdes : m'.word d = m.word d
  gone : ∀ p i, i < n → o p = .table d i → o' p = .free
  left : ∀ p i, n ≤ i → o p = .table d i → o' p = .held
  dir : o' d = .held
  roles : ∀ p, ¬ PartOf o d p → o' p = o p
  words : ∀ p, ¬ PartOf o d p → o p ≠ .free → m'.word p = m.word p

theorem Freeing.table (hf : Freeing k d v m o m' o' l') (ho : Owned k m o l) (hd : o d = .dir h)
    (hv : v < 1024) :
    Ensures (freeTable k d v) m' (fun _ m'' => ∃ o'' l'', Freeing k d (v + 1) m o m'' o'' l'')
      fun _ => False := by
  have hunique : ∀ p i, o p = .table d i → pteP (m.word d i) = true ∧ pteAddr (m.word d i) = p :=
    fun p i hp => (ho.tabled p d i hp).2.2
  unfold freeTable
  simp only [ensures_bind, ensures_get]
  rw [hf.pdes]
  by_cases hpresent : pteP (m.word d v) = true
  · rw [if_pos hpresent]
    have ht := ho.tables d h v hd hv hpresent
    generalize pteAddr (m.word d v) = t at ht
    have hheld := hf.left t v (le_refl v) ht
    have husable := hf.owned.usable t (by simp [hheld])
    rw [kfree_ensures husable]
    have hother : ∀ q, o q ≠ .table d v → q ≠ t := by
      rintro q hq rfl
      exact hq ht
    have hnot : ∀ q, ¬ PartOf o d q → q ≠ t :=
      fun q hq => hother q fun htable => hq (Or.inr (Or.inl ⟨_, htable⟩))
    have hdt : d ≠ t := hother d (by simp [hd])
    refine ⟨update o' t .free, t :: l',
      hf.owned.push (by simp [hheld, Role.Mapped]) (by simp [hheld]) husable,
      ?_, ?_, ?_, ?_, ?_, ?_⟩
    · rw [word_push_of_ne _ _ hdt]
      exact hf.pdes
    · intro q i hi hq
      by_cases hqt : q = t
      · simp [hqt]
      · rw [update_of_ne hqt]
        refine hf.gone q i ?_ hq
        have hne : i ≠ v := by
          rintro rfl
          exact hqt ((hunique q i hq).2.symm.trans (hunique t i ht).2)
        omega
    · intro q i hi hq
      rw [update_of_ne]
      · exact hf.left q i (by omega) hq
      · rintro rfl
        rw [ht] at hq
        have hindex : v = i := by simpa using hq
        omega
    · rw [update_of_ne hdt]
      exact hf.dir
    · intro q hq
      rw [update_of_ne (hnot q hq)]
      exact hf.roles q hq
    · intro q hq hused
      rw [word_push_of_ne _ _ (hnot q hq)]
      exact hf.words q hq hused
  · rw [if_neg hpresent, ensures_pure]
    refine ⟨o', l', hf.owned, hf.pdes, ?_, ?_, hf.dir, hf.roles, hf.words⟩
    · intro q i hi hq
      have hne : i ≠ v := by
        rintro rfl
        exact hpresent (hunique q i hq).1
      exact hf.gone q i (by omega) hq
    · exact fun q i hi hq => hf.left q i (by omega) hq

theorem freeTables_spec {n : ℕ} (ho : Owned k m o l) (hd : o d = .dir h) (hn : n ≤ 1024) :
    Ensures (freeTables k d n) m (fun _ m' => ∃ o' l', Freeing k d n m o m' o' l')
      fun _ => False := by
  unfold freeTables
  refine ensures_forM_range (fun i m' => ∃ o' l', Freeing k d i m o m' o' l') ?_ ?_
  · refine ⟨forget o d, l, ho.forget hd, rfl, ?_, ?_, if_pos (Or.inl rfl), ?_, fun _ _ _ => rfl⟩
    · intro p i hi
      omega
    · exact fun p i _ hp => if_pos (Or.inr (Or.inl ⟨i, hp⟩))
    · exact fun p hp => if_neg hp
  · rintro i m' hi ⟨o', l', hf⟩
    exact hf.table ho hd (by omega)

theorem freeDir_spec {n : ℕ} (hn : n = 1024) (ho : Owned k m o l) (hd : o d = .dir h)
    (hframes : ∀ p v, o p ≠ .frame d v) :
    Ensures (freeTables k d n >>= fun _ => kfree k d) m
      (fun _ m' => ∃ o' l', Freed k d m o m' o' l')
      fun _ => False := by
  refine (freeTables_spec ho hd hn.le).bind ?_
  rintro - m' ⟨o', l', hf⟩
  have husable := hf.owned.usable d (by simp [hf.dir])
  rw [kfree_ensures husable]
  refine ⟨_, _, hf.owned.push (p := d) (by simp [hf.dir, Role.Mapped]) (by simp [hf.dir]) husable,
    ?_, ?_, ?_⟩
  · rintro p (rfl | ⟨i, hp⟩ | ⟨v, hp⟩)
    · simp
    · rw [update_of_ne]
      · exact hf.gone p i (hn ▸ (ho.tabled p d i hp).1) hp
      · rintro rfl
        simp [hd] at hp
    · exact absurd hp (hframes p v)
  · intro p hp
    rw [update_of_ne fun heq => hp (Or.inl heq)]
    exact hf.roles p hp
  · intro p hp hused
    rw [word_push_of_ne _ _ fun heq => hp (Or.inl heq)]
    exact hf.words p hp hused

theorem Freed.after (hf : Freed k d m' o' m'' o'' l'')
    (hs : Shrunk k d (fun v => v < kernpage) m o m' o' l') : Freed k d m o m'' o'' l'' := by
  have hpart : ∀ p, ¬ PartOf o d p → ¬ PartOf o' d p ∧ o' p = o p := by
    intro p hp
    rcases hs.roles p with hrole | ⟨⟨v, -, hframe⟩, -⟩
    · refine ⟨?_, hrole⟩
      rwa [PartOf, hrole]
    · exact absurd (Or.inr (Or.inr ⟨v, hframe⟩)) hp
  refine ⟨hf.owned, ?_, ?_, ?_⟩
  · intro p hp
    by_cases hpart' : PartOf o' d p
    · exact hf.gone p hpart'
    · rw [hf.roles p hpart']
      rcases hs.roles p with hrole | ⟨-, hfree⟩
      · rw [PartOf, hrole] at hpart'
        exact absurd hp hpart'
      · exact hfree
  · intro p hp
    rw [hf.roles p (hpart p hp).1, (hpart p hp).2]
  · intro p hp hused
    rw [hf.words p (hpart p hp).1 (by rwa [(hpart p hp).2])]
    exact hs.words p (by rwa [(hpart p hp).2]) fun i hi => hp (Or.inr (Or.inl ⟨i, hi⟩))

theorem freevm_spec (ho : Owned k m o l) (hd : o d = .dir h) :
    Ensures (freevm k d) m (fun _ m' => ∃ o' l', Freed k d m o m' o' l') fun _ => False := by
  unfold freevm
  have hn : npdentries = 1024 := rfl
  generalize npdentries = n at hn
  refine (deallocuvm_all ho hd).bind ?_
  rintro - m₁ ⟨o₁, l₁, hs⟩
  have hframes : ∀ p v, o₁ p ≠ .frame d v := by
    intro p v hp
    obtain ⟨hv, w, hpte, -⟩ := hs.owned.pte_of_frame hp
    rw [hs.gone v hv] at hpte
    contradiction
  refine (freeDir_spec hn hs.owned (hs.dir hd) hframes).post ?_
  rintro - m' ⟨o', l', hf⟩
  exact ⟨o', l', hf.after hs⟩

end Shrinking

end Xv6Kernel.Vm
