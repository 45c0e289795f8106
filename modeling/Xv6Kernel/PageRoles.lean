import Xv6Kernel.PageCalls

/-!
# What each page is used for

An assignment of roles to pages says for every page that is in use where the pointer to it
is.  It is a function, so a page has one role; an assignment fits the memory if the free
list, the directories and the tables have their pages in the roles that belong to them.
-/

namespace Xv6Kernel.Vm

open TraceExecution StateHoare Function PhysMem

inductive Holder
  | nobody
  | kernel
  | proc (p : Fin 64)

/-- A page that is `held` was taken from the free list and has no role yet, or none any
more; `other` pages were never in the list. -/
inductive Role
  | other
  | free
  | held
  | dir (h : Holder)
  | table (d i : ℕ)
  | frame (d v : ℕ)

/-- The words of the page are not read by the kernel as pointers. -/
def Role.Plain : Role → Prop
  | .free => False
  | .dir _ => False
  | .table _ _ => False
  | _ => True

def Role.Mapped : Role → Prop
  | .dir _ => True
  | .table _ _ => True
  | .frame _ _ => True
  | _ => False

structure Fits (m : PhysMem) (o : ℕ → Role) : Prop where
  tables : ∀ d h i, o d = .dir h → i < 1024 → pteP (m.word d i) = true →
    o (pteAddr (m.word d i)) = .table d i
  tabled : ∀ t d i, o t = .table d i → i < 1024 ∧ (∃ h, o d = .dir h) ∧
    pteP (m.word d i) = true ∧ pteAddr (m.word d i) = t
  frames : ∀ t d i j, o t = .table d i → i < 512 → j < 1024 → pteP (m.word t j) = true →
    o (pteAddr (m.word t j)) = .frame d (1024 * i + j)
  framed : ∀ p d v, o p = .frame d v → v < kernpage ∧ ∃ t, o t = .table d (v / 1024) ∧
    pteP (m.word t (v % 1024)) = true ∧ pteAddr (m.word t (v % 1024)) = p
  kernel : ∀ t d i j, o t = .table d i → 512 ≤ i → pteU (m.word t j) = false

structure Owned (k : KernelImage) (m : PhysMem) (o : ℕ → Role) (l : List ℕ) : Prop
    extends Fits m o where
  linked : LinkedQueue.Linked m.next m.freelist l
  nodup : l.Nodup
  free_iff : ∀ p, p ∈ l ↔ o p = .free
  usable : ∀ p, o p ≠ .other → k.stop ≤ p ∧ p < phystop

theorem lor_one_lt {perm : ℕ} (h : perm < 4096) : perm ||| 1 < 4096 :=
  Nat.or_lt_two_pow (n := 12) h (by decide)

@[simp] theorem pteP_entry (p perm : ℕ) : pteP (entry p perm) = true := by
  have hbit : (perm ||| 1).testBit 0 = true := by simp
  rw [Nat.testBit_zero, decide_eq_true_eq] at hbit
  refine decide_eq_true ?_
  rw [entry]
  omega

theorem pteAddr_entry {p perm : ℕ} (h : perm < 4096) : pteAddr (entry p perm) = p := by
  have hlt := lor_one_lt h
  simp only [pteAddr, entry]
  omega

@[simp] theorem pteP_zero : pteP 0 = false := rfl

@[simp] theorem pteU_zero : pteU 0 = false := rfl

namespace PhysMem

variable (m : PhysMem) (p i w : ℕ) (content : ℕ → ℕ)

@[simp] theorem word_fill : (m.fill p content).word = update m.word p content := rfl

@[simp] theorem freelist_fill : (m.fill p content).freelist = m.freelist := rfl

@[simp] theorem refuse_fill : (m.fill p content).refuse = m.refuse := rfl

@[simp] theorem word_setWord :
    (m.setWord p i w).word = update m.word p (update (m.word p) i w) := rfl

theorem setWord_apply (q j : ℕ) :
    (m.setWord p i w).word q j = if q = p ∧ j = i then w else m.word q j := by
  by_cases hq : q = p
  · subst q
    by_cases hj : j = i
    · simp [hj]
    · simp [hj]
  · simp [hq]

@[simp] theorem freelist_setWord : (m.setWord p i w).freelist = m.freelist := rfl

@[simp] theorem refuse_setWord : (m.setWord p i w).refuse = m.refuse := rfl

@[simp] theorem freelist_push : (m.push p).freelist = some p := rfl

@[simp] theorem refuse_push : (m.push p).refuse = m.refuse := rfl

theorem word_push_of_ne {q : ℕ} (h : q ≠ p) : (m.push p).word q = m.word q := by
  simp [push, h]

theorem push_setWord_comm {q j x : ℕ} (h : q ≠ p) :
    (m.push p).setWord q j x = (m.setWord q j x).push p := by
  simp [push, setWord, fill, h, h.symm, update_comm h]

theorem next_push_self : (m.push p).next p = m.freelist := by
  cases hlist : m.freelist with
  | none => simp [push, next, hlist]
  | some r =>
    have hne : kernbase + 4096 * r ≠ 0 := by simp
    simp [push, next, hlist]

theorem next_congr {m m' : PhysMem} {p : ℕ} (h : m'.word p = m.word p) : m'.next p = m.next p := by
  rw [next, next, h]

end PhysMem

theorem Fits.congr {m m' : PhysMem} {o : ℕ → Role} (h : Fits m o)
    (hword : ∀ q, ¬ (o q).Plain → m'.word q = m.word q) : Fits m' o := by
  constructor
  case tables =>
    intro d hd i hdir
    rw [hword d (by simp [hdir, Role.Plain])]
    exact h.tables d hd i hdir
  case tabled =>
    intro t d i ht
    obtain ⟨hi, ⟨hd, hdir⟩, hrest⟩ := h.tabled t d i ht
    rw [hword d (by simp [hdir, Role.Plain])]
    exact ⟨hi, ⟨hd, hdir⟩, hrest⟩
  case frames =>
    intro t d i j ht
    rw [hword t (by simp [ht, Role.Plain])]
    exact h.frames t d i j ht
  case framed =>
    intro p d v hp
    obtain ⟨hv, t, ht, hrest⟩ := h.framed p d v hp
    refine ⟨hv, t, ht, ?_⟩
    rwa [hword t (by simp [ht, Role.Plain])]
  case kernel =>
    intro t d i j ht
    rw [hword t (by simp [ht, Role.Plain])]
    exact h.kernel t d i j ht

theorem Fits.retag {m m' : PhysMem} {o : ℕ → Role} {p : ℕ} {r : Role} (h : Fits m o)
    (hp : ¬ (o p).Mapped) (hr : ¬ r.Mapped) (hword : ∀ q, q ≠ p → m'.word q = m.word q) :
    Fits m' (update o p r) := by
  have hne : ∀ q, (o q).Mapped → q ≠ p := by
    rintro q hq rfl
    exact hp hq
  have hkept : ∀ q, (update o p r q).Mapped → q ≠ p ∧ o q = update o p r q := by
    intro q hq
    have hqp : q ≠ p := by
      rintro rfl
      rw [update_self] at hq
      exact hr hq
    exact ⟨hqp, (update_of_ne hqp ..).symm⟩
  constructor
  case tables =>
    intro d hd i hdir hi hpresent
    obtain ⟨hdp, hrole⟩ := hkept d (by simp [hdir, Role.Mapped])
    rw [hword d hdp] at hpresent ⊢
    have htable := h.tables d hd i (hrole.trans hdir) hi hpresent
    rw [update_of_ne (hne _ (by simp [htable, Role.Mapped]))]
    exact htable
  case tabled =>
    intro t d i ht
    obtain ⟨-, hrole⟩ := hkept t (by simp [ht, Role.Mapped])
    obtain ⟨hi, ⟨hd, hdir⟩, hrest⟩ := h.tabled t d i (hrole.trans ht)
    have hdp := hne d (by simp [hdir, Role.Mapped])
    rw [hword d hdp, update_of_ne hdp]
    exact ⟨hi, ⟨hd, hdir⟩, hrest⟩
  case frames =>
    intro t d i j ht hi hj hpresent
    obtain ⟨htp, hrole⟩ := hkept t (by simp [ht, Role.Mapped])
    rw [hword t htp] at hpresent ⊢
    have hframe := h.frames t d i j (hrole.trans ht) hi hj hpresent
    rw [update_of_ne (hne _ (by simp [hframe, Role.Mapped]))]
    exact hframe
  case framed =>
    intro q d v hq
    obtain ⟨-, hrole⟩ := hkept q (by simp [hq, Role.Mapped])
    obtain ⟨hv, t, ht, hrest⟩ := h.framed q d v (hrole.trans hq)
    have htp := hne t (by simp [ht, Role.Mapped])
    refine ⟨hv, t, ?_, ?_⟩
    · rw [update_of_ne htp]
      exact ht
    · rwa [hword t htp]
  case kernel =>
    intro t d i j ht
    obtain ⟨htp, hrole⟩ := hkept t (by simp [ht, Role.Mapped])
    rw [hword t htp]
    exact h.kernel t d i j (hrole.trans ht)

namespace Owned

variable {k : KernelImage} {m : PhysMem} {o : ℕ → Role} {l : List ℕ} {p : ℕ} {r : Role}

theorem not_free (h : Owned k m o l) (hp : o p ≠ .free) : p ∉ l :=
  fun hmem => hp ((h.free_iff p).mp hmem)

theorem pop (h : Owned k m o (p :: l)) (asked : ℕ) :
    Owned k { m with freelist := m.next p, asked := asked } (update o p .held) l := by
  have hfree : o p = .free := (h.free_iff p).mp List.mem_cons_self
  obtain ⟨hnot, hnodup⟩ := List.nodup_cons.mp h.nodup
  refine ⟨h.toFits.retag (by simp [hfree, Role.Mapped]) (by simp [Role.Mapped]) fun _ _ => rfl,
    h.linked.2, hnodup, ?_, ?_⟩
  · intro q
    have hq := h.free_iff q
    grind [update_apply]
  · intro q hq
    have husable := h.usable q
    grind [update_apply]

theorem push (h : Owned k m o l) (hp : ¬ (o p).Mapped) (hfree : o p ≠ .free)
    (husable : k.stop ≤ p ∧ p < phystop) : Owned k (m.push p) (update o p .free) (p :: l) := by
  have hnot : p ∉ l := h.not_free hfree
  have hword : ∀ q, q ≠ p → (m.push p).word q = m.word q := fun q hq => m.word_push_of_ne p hq
  refine ⟨h.toFits.retag hp (by simp [Role.Mapped]) hword, ⟨rfl, ?_⟩,
    List.nodup_cons.mpr ⟨hnot, h.nodup⟩, ?_, ?_⟩
  · rw [m.next_push_self]
    refine h.linked.congr ?_
    intro q hq
    exact next_congr (hword q fun heq => hnot (heq ▸ hq))
  · intro q
    have hq := h.free_iff q
    grind [update_apply]
  · intro q hq
    have hold := h.usable q
    grind [update_apply]

theorem of_fits {m' : PhysMem} {o' : ℕ → Role} (h : Owned k m o l) (hfits : Fits m' o')
    (hfree : ∀ q, o' q = .free ↔ o q = .free) (hother : ∀ q, o' q ≠ .other → o q ≠ .other)
    (hlist : m'.freelist = m.freelist) (hword : ∀ q, o q = .free → m'.word q = m.word q) :
    Owned k m' o' l := by
  refine ⟨hfits, ?_, h.nodup, fun q => (h.free_iff q).trans (hfree q).symm,
    fun q hq => h.usable q (hother q hq)⟩
  rw [hlist]
  refine h.linked.congr ?_
  intro q hq
  exact next_congr (hword q ((h.free_iff q).mp hq))

theorem fill (h : Owned k m o l) (hp : (o p).Plain) (content : ℕ → ℕ) :
    Owned k (m.fill p content) o l := by
  have hword : ∀ q, ¬ (o q).Plain → (m.fill p content).word q = m.word q := by
    intro q hq
    have hne : q ≠ p := by
      rintro rfl
      exact hq hp
    simp [hne]
  refine h.of_fits (h.toFits.congr hword) (fun _ => Iff.rfl) (fun _ => id) rfl ?_
  intro q hq
  exact hword q (by simp [hq, Role.Plain])

end Owned

/-! ## Changes of an address space -/

def PartOf (o : ℕ → Role) (d p : ℕ) : Prop :=
  p = d ∨ (∃ i, o p = .table d i) ∨ ∃ v, o p = .frame d v

open Classical in
noncomputable def forget (o : ℕ → Role) (d p : ℕ) : Role :=
  if PartOf o d p then .held else o p

namespace Owned

variable {k : KernelImage} {m : PhysMem} {o : ℕ → Role} {l : List ℕ} {d t p i j w : ℕ}
  {h h' : Holder}

theorem newDir (ho : Owned k m o l) (hd : o d = .held) (hempty : ∀ i, pteP (m.word d i) = false) :
    Owned k m (update o d (.dir h)) l := by
  have hnot : ∀ t i, o t ≠ .table d i := by
    intro t i ht
    obtain ⟨-, ⟨h', hdir⟩, -⟩ := ho.tabled t d i ht
    simp [hd] at hdir
  refine ho.of_fits ?_ (by grind [update_apply]) (by grind [update_apply]) rfl fun _ _ => rfl
  constructor
  case tables =>
    intro d' h' i
    have htables := ho.tables d' h' i
    grind [update_apply]
  case tabled =>
    intro t d' i
    have htabled := ho.tabled t d' i
    grind [update_apply]
  case frames =>
    intro t d' i j
    have hframes := ho.frames t d' i j
    grind [update_apply]
  case framed =>
    intro p d' v
    have hframed := ho.framed p d' v
    grind [update_apply]
  case kernel =>
    intro t d' i j
    have hkernel := ho.kernel t d' i j
    grind [update_apply]

theorem setWord_free (hp : o p ≠ .free) (q : ℕ) (hq : o q = .free) :
    (m.setWord p i w).word q = m.word q := by
  have hne : q ≠ p := by
    rintro rfl
    exact hp hq
  simp [hne]

theorem link (ho : Owned k m o l) (hd : o d = .dir h) (ht : o t = .held) (hi : i < 1024)
    (habsent : pteP (m.word d i) = false) (hempty : ∀ j, m.word t j = 0)
    (hw : pteP w = true ∧ pteAddr w = t) :
    Owned k (m.setWord d i w) (update o t (.table d i)) l := by
  have hdt : d ≠ t := by
    rintro rfl
    simp [hd] at ht
  refine ho.of_fits ?_ (by grind [update_apply]) (by grind [update_apply]) rfl
    (setWord_free (by simp [hd]))
  constructor
  case tables =>
    intro d' h' i'
    have htables := ho.tables d' h' i'
    grind [update_apply, setWord_apply]
  case tabled =>
    intro t' d' i'
    have htabled := ho.tabled t' d' i'
    grind [update_apply, setWord_apply]
  case frames =>
    intro t' d' i' j'
    have hframes := ho.frames t' d' i' j'
    grind [update_apply, setWord_apply, pteP_zero]
  case framed =>
    intro p d' v hp
    have hpt : p ≠ t := by
      rintro rfl
      simp at hp
    rw [update_of_ne hpt] at hp
    obtain ⟨hv, t', ht', hrest⟩ := ho.framed p d' v hp
    have hne : t' ≠ t := by
      rintro rfl
      simp [ht] at ht'
    refine ⟨hv, t', by rw [update_of_ne hne]; exact ht', ?_⟩
    rwa [setWord_apply, if_neg]
    rintro ⟨rfl, -⟩
    simp [hd] at ht'
  case kernel =>
    intro t' d' i' j'
    have hkernel := ho.kernel t' d' i' j'
    grind [update_apply, setWord_apply, pteU_zero]

theorem map (ho : Owned k m o l) (ht : o t = .table d i) (hi : i < 512) (hj : j < 1024)
    (hp : o p = .held) (habsent : pteP (m.word t j) = false) (hw : pteP w = true ∧ pteAddr w = p) :
    Owned k (m.setWord t j w) (update o p (.frame d (1024 * i + j))) l := by
  have hkern : kernpage = 524288 := rfl
  have hindex : (1024 * i + j) / 1024 = i := by omega
  have hoffset : (1024 * i + j) % 1024 = j := by omega
  obtain ⟨-, ⟨h, hd⟩, hpresent, haddr⟩ := ho.tabled t d i ht
  refine ho.of_fits ?_ (by grind [update_apply]) (by grind [update_apply]) rfl
    (setWord_free (by simp [ht]))
  constructor
  case tables =>
    intro d' h' i'
    have htables := ho.tables d' h' i'
    grind [update_apply, setWord_apply]
  case tabled =>
    intro t' d' i'
    have htabled := ho.tabled t' d' i'
    grind [update_apply, setWord_apply]
  case frames =>
    intro t' d' i' j'
    have hframes := ho.frames t' d' i' j'
    grind [update_apply, setWord_apply]
  case framed =>
    intro q d' v hq
    have htp : t ≠ p := by
      rintro rfl
      simp [hp] at ht
    by_cases hqp : q = p
    · subst q
      simp only [update_self, Role.frame.injEq] at hq
      obtain ⟨rfl, rfl⟩ := hq
      refine ⟨by omega, t, ?_, ?_⟩
      · rw [update_of_ne htp, hindex]
        exact ht
      · rwa [setWord_apply, if_pos ⟨rfl, hoffset⟩]
    · rw [update_of_ne hqp] at hq
      obtain ⟨hv, t', ht', hrest⟩ := ho.framed q d' v hq
      have hne : t' ≠ p := by
        rintro rfl
        simp [hp] at ht'
      refine ⟨hv, t', by rw [update_of_ne hne]; exact ht', ?_⟩
      rwa [setWord_apply, if_neg]
      rintro ⟨rfl, rfl⟩
      simp [habsent] at hrest
  case kernel =>
    intro t' d' i' j'
    have hkernel := ho.kernel t' d' i' j'
    grind [update_apply, setWord_apply]

theorem weaken (ho : Owned k m o l) (ht : o t = .table d i)
    (huser : i < 512 → pteP w = pteP (m.word t j) ∧ pteAddr w = pteAddr (m.word t j))
    (hkernel : 512 ≤ i → pteU w = false) : Owned k (m.setWord t j w) o l := by
  refine ho.of_fits ?_ (fun _ => Iff.rfl) (fun _ => id) rfl (setWord_free (by simp [ht]))
  constructor
  case tables =>
    intro d' h' i'
    have htables := ho.tables d' h' i'
    grind [setWord_apply]
  case tabled =>
    intro t' d' i'
    have htabled := ho.tabled t' d' i'
    grind [setWord_apply]
  case frames =>
    intro t' d' i' j'
    have hframes := ho.frames t' d' i' j'
    grind [setWord_apply]
  case framed =>
    have hkern : kernpage = 524288 := rfl
    intro p d' v hp
    obtain ⟨hv, t', ht', hrest⟩ := ho.framed p d' v hp
    refine ⟨hv, t', ht', ?_⟩
    rw [setWord_apply]
    by_cases heq : t' = t ∧ v % 1024 = j
    · obtain ⟨rfl, rfl⟩ := heq
      have hi : i < 512 := by
        rw [ht'] at ht
        simp only [Role.table.injEq] at ht
        omega
      rw [if_pos ⟨rfl, rfl⟩, (huser hi).1, (huser hi).2]
      exact hrest
    · rw [if_neg heq]
      exact hrest
  case kernel =>
    intro t' d' i' j'
    have hkernel := ho.kernel t' d' i' j'
    grind [setWord_apply]

theorem clear {v : ℕ} (ho : Owned k m o l) (ht : o t = .table d (v / 1024)) (hv : v < kernpage)
    (hpresent : pteP (m.word t (v % 1024)) = true) (hp : pteAddr (m.word t (v % 1024)) = p) :
    Owned k (m.setWord t (v % 1024) 0) (update o p .held) l := by
  have hkern : kernpage = 524288 := rfl
  have hframe := ho.frames t d (v / 1024) (v % 1024) ht (by omega) (by omega) hpresent
  rw [Nat.div_add_mod, hp] at hframe
  refine ho.of_fits ?_ (by grind [update_apply]) (by grind [update_apply]) rfl
    (setWord_free (by simp [ht]))
  constructor
  case tables =>
    intro d' h' i'
    have htables := ho.tables d' h' i'
    grind [update_apply, setWord_apply]
  case tabled =>
    intro t' d' i'
    have htabled := ho.tabled t' d' i'
    grind [update_apply, setWord_apply]
  case frames =>
    intro t' d' i' j' ht' hi' hj' hpte
    have hne' : t' ≠ p := by
      rintro rfl
      simp at ht'
    rw [update_of_ne hne'] at ht'
    rw [setWord_apply] at hpte ⊢
    by_cases heq : t' = t ∧ j' = v % 1024
    · rw [if_pos heq] at hpte
      simp at hpte
    · rw [if_neg heq] at hpte ⊢
      have hframe' := ho.frames t' d' i' j' ht' hi' hj' hpte
      rw [update_of_ne]
      · exact hframe'
      · intro hsame
        rw [hsame, hframe] at hframe'
        simp only [Role.frame.injEq] at hframe'
        obtain ⟨rfl, hindex⟩ := hframe'
        obtain rfl : v / 1024 = i' := by omega
        refine heq ⟨?_, by omega⟩
        rw [← (ho.tabled t d _ ht).2.2.2, ← (ho.tabled t' d _ ht').2.2.2]
  case framed =>
    intro q d' v' hq
    have hqp : q ≠ p := by
      rintro rfl
      simp at hq
    rw [update_of_ne hqp] at hq
    obtain ⟨hv', t', ht', hpte, haddr⟩ := ho.framed q d' v' hq
    refine ⟨hv', t', ?_, ?_⟩
    · rw [update_of_ne]
      · exact ht'
      · rintro rfl
        simp [hframe] at ht'
    · rw [setWord_apply, if_neg]
      · exact ⟨hpte, haddr⟩
      · rintro ⟨rfl, hj⟩
        rw [hj] at haddr
        exact hqp (haddr.symm.trans hp)
  case kernel =>
    intro t' d' i' j'
    have hkernel := ho.kernel t' d' i' j'
    grind [update_apply, setWord_apply, pteU_zero]

theorem forget (ho : Owned k m o l) (hd : o d = .dir h) : Owned k m (Vm.forget o d) l := by
  refine ho.of_fits ?_ ?_ ?_ rfl fun _ _ => rfl
  · constructor
    case tables =>
      intro d' h' i
      have htables := ho.tables d' h' i
      grind [Vm.forget, PartOf]
    case tabled =>
      intro t d' i
      have htabled := ho.tabled t d' i
      grind [Vm.forget, PartOf]
    case frames =>
      intro t d' i j
      have htabled := ho.tabled t d' i
      have hframes := ho.frames t d' i j
      grind [Vm.forget, PartOf]
    case framed =>
      intro p d' v
      have hframed := ho.framed p d' v
      grind [Vm.forget, PartOf]
    case kernel =>
      intro t d' i j
      have hkernel := ho.kernel t d' i j
      grind [Vm.forget, PartOf]
  · grind [Vm.forget, PartOf]
  · grind [Vm.forget, PartOf]

end Owned

end Xv6Kernel.Vm
