import Xv6Kernel.UserHeapInvariant

/-!
# What `malloc` and `free` do to the heap

`free` puts a block between its neighbours and joins it with those that it touches;
`malloc` takes a block off the list or cuts it off the end of a larger one, and gets
new memory if there is none.
-/

namespace Xv6Kernel

open TraceExecution LinkedCycle List HeapBlock

def units (l : List HeapBlock) : ℕ := (l.map (·.size)).sum

@[simp] theorem units_nil : units [] = 0 := rfl

@[simp] theorem units_cons (b : HeapBlock) (l : List HeapBlock) :
    units (b :: l) = b.size + units l := by
  simp [units]

@[simp] theorem units_append (l₁ l₂ : List HeapBlock) : units (l₁ ++ l₂) = units l₁ + units l₂ := by
  simp [units]

theorem units_perm {l₁ l₂ : List HeapBlock} (h : l₁.Perm l₂) : units l₁ = units l₂ :=
  (h.map _).sum_eq

@[simp] theorem UserMem.brk_joinUpper (m : UserMem) (bp p : ℕ) :
    (m.joinUpper bp p).brk = m.brk := by
  unfold UserMem.joinUpper
  split <;> rfl

@[simp] theorem UserMem.brk_joinLower (m : UserMem) (bp p : ℕ) :
    (m.joinLower bp p).brk = m.brk := by
  unfold UserMem.joinLower
  split <;> rfl

theorem HeapBlock.Apart.join {b d x : HeapBlock} (htouch : b.stop = d.addr) (hx : 0 < x.size)
    (hb : b.Apart x) (hd : d.Apart x) : HeapBlock.Apart ⟨b.addr, b.size + d.size⟩ x := by
  simp only [HeapBlock.Apart, stop] at *
  omega

namespace HeapOk

variable {base : ℕ} {m m' : UserMem} {F L l₁ l₂ : List HeapBlock} {b : HeapBlock}

theorem next_lastNode_nil (h : HeapOk base m l₁ L) : m.next (lastNode base l₁) = base := by
  obtain ⟨q, hq⟩ := nodes_append base l₁
  have hnodes := hq []
  rw [append_nil] at hnodes
  exact h.next_last hnodes

theorem next_lastNode_cons {d : HeapBlock} (h : HeapOk base m (l₁ ++ d :: l₂) L) :
    m.next (lastNode base l₁) = d.addr := by
  obtain ⟨q, hq⟩ := nodes_append base l₁
  exact h.next_mid (hq (d :: l₂))

theorem frame (h : HeapOk base m F L) (hnext : ∀ z ∈ nodes base F, m'.next z = m.next z)
    (hsize : ∀ z ∈ nodes base F, m'.size z = m.size z)
    (hused : ∀ b ∈ L, m'.size b.addr = m.size b.addr) (hbrk : m'.brk = m.brk) :
    HeapOk base m' F L where
  cycle := h.cycle.congr hnext
  baseSize := (hsize base mem_cons_self).trans h.baseSize
  free := by
    intro f hf
    have hplaced := h.free f hf
    have hmem : f.addr ∈ nodes base F := mem_cons_of_mem _ (mem_map_of_mem hf)
    exact ⟨(hsize f.addr hmem).trans hplaced.size, hplaced.pos, hplaced.low, hbrk ▸ hplaced.high⟩
  used := by
    intro b hb
    have hplaced := h.used b hb
    exact ⟨(hused b hb).trans hplaced.size, hplaced.pos, hplaced.low, hbrk ▸ hplaced.high⟩
  gaps := h.gaps
  apart := h.apart
  disjoint := h.disjoint
  brk := hbrk ▸ h.brk

theorem tail (h : HeapOk base m F (b :: L)) : HeapOk base m F L where
  cycle := h.cycle
  baseSize := h.baseSize
  free := h.free
  used := fun x hx => h.used x (mem_cons_of_mem b hx)
  gaps := h.gaps
  apart := h.apart.of_cons
  disjoint := fun f hf x hx => h.disjoint f hf x (mem_cons_of_mem b hx)
  brk := h.brk

theorem cons_live (h : HeapOk base m F L) (hplaced : BlockPlaced base m b)
    (hapart : ∀ x ∈ L, b.Apart x) (hdisjoint : ∀ f ∈ F, HeapBlock.Apart f b) :
    HeapOk base m F (b :: L) where
  cycle := h.cycle
  baseSize := h.baseSize
  free := h.free
  used := forall_mem_cons.mpr ⟨hplaced, h.used⟩
  gaps := h.gaps
  apart := pairwise_cons.mpr ⟨hapart, h.apart⟩
  disjoint := fun f hf => forall_mem_cons.mpr ⟨hdisjoint f hf, h.disjoint f hf⟩
  brk := h.brk

theorem unlink {d : HeapBlock} (h : HeapOk base m (l₁ ++ d :: l₂) L) :
    HeapOk base (m.setPtr (lastNode base l₁) (m.next d.addr)) (l₁ ++ l₂) L := by
  have hsublist : (l₁ ++ l₂).Sublist (l₁ ++ d :: l₂) := (sublist_cons_self d l₂).append_left l₁
  obtain ⟨q, hq⟩ := nodes_append base l₁
  constructor
  case cycle =>
    have hcycle := h.cycle
    have hnodup := h.nodup
    rw [hq, map_cons] at hcycle hnodup
    rw [nodup_append, nodup_cons] at hnodup
    have hnot : lastNode base l₁ ∉ l₂.map (·.addr) ++ q := by
      rw [mem_append, not_or]
      refine ⟨fun hmem => hnodup.2.1.1 (mem_cons_of_mem _ hmem), ?_⟩
      intro hmem
      exact hnodup.2.2 _ hmem _ mem_cons_self rfl
    have hremoved := Cycle.remove (l := l₂.map (·.addr) ++ q) hcycle.rotate hnot
    rw [hq, UserMem.next_setPtr]
    exact hremoved.rotate (l := lastNode base l₁ :: l₂.map (·.addr))
  case baseSize =>
    rw [UserMem.size_setPtr]
    exact h.baseSize
  case free =>
    intro f hf
    have hplaced := h.free f (hsublist.subset hf)
    exact ⟨by simpa using hplaced.size, hplaced.pos, hplaced.low, hplaced.high⟩
  case used =>
    intro b hb
    have hplaced := h.used b hb
    exact ⟨by simpa using hplaced.size, hplaced.pos, hplaced.low, hplaced.high⟩
  case gaps => exact h.gaps.sublist hsublist
  case apart => exact h.apart
  case disjoint => exact fun f hf => h.disjoint f (hsublist.subset hf)
  case brk => exact h.brk

theorem resize {a : HeapBlock} {n : ℕ} (h : HeapOk base m (l₁ ++ a :: l₂) L) (hpos : 0 < n)
    (hstop : a.addr + 8 * n ≤ m.brk) (hgap : ∀ f ∈ l₂, a.addr + 8 * n < f.addr)
    (hapart : ∀ x ∈ L, HeapBlock.Apart ⟨a.addr, n⟩ x) :
    HeapOk base (m.setSize a.addr n) (l₁ ++ ⟨a.addr, n⟩ :: l₂) L := by
  have hnodes : nodes base (l₁ ++ ⟨a.addr, n⟩ :: l₂) = nodes base (l₁ ++ a :: l₂) := by
    simp [nodes]
  have ha : a ∈ l₁ ++ a :: l₂ := by simp
  have hlow := (h.free a ha).low
  have hmem : ∀ f ∈ l₁ ++ ⟨a.addr, n⟩ :: l₂, f = ⟨a.addr, n⟩ ∨
      (f ∈ l₁ ++ a :: l₂ ∧ f.addr ≠ a.addr) := by
    intro f hf
    have hnodup := h.nodup
    rw [nodes, nodup_cons, map_append, map_cons, nodup_append, nodup_cons] at hnodup
    rcases mem_append.mp hf with hf | hf
    · refine Or.inr ⟨mem_append_left _ hf, ?_⟩
      exact hnodup.2.2.2 _ (mem_map_of_mem hf) _ mem_cons_self
    · rcases mem_cons.mp hf with rfl | hf
      · exact Or.inl rfl
      · refine Or.inr ⟨mem_append_right _ (mem_cons_of_mem a hf), ?_⟩
        intro heq
        exact hnodup.2.2.1.1 (heq ▸ mem_map_of_mem hf)
  constructor
  case cycle =>
    rw [hnodes, UserMem.next_setSize]
    exact h.cycle
  case baseSize =>
    have hne : base ≠ a.addr := by omega
    rw [UserMem.size_setSize, Function.update_of_ne hne]
    exact h.baseSize
  case free =>
    intro f hf
    rcases hmem f hf with rfl | ⟨hf, hne⟩
    · exact ⟨by simp, hpos, hlow, hstop⟩
    · have hplaced := h.free f hf
      exact ⟨by simpa [hne] using hplaced.size, hplaced.pos, hplaced.low, hplaced.high⟩
  case used =>
    intro x hx
    have hplaced := h.used x hx
    have hne : x.addr ≠ a.addr := by
      intro heq
      refine h.not_node hx ?_
      rw [heq]
      exact mem_cons_of_mem _ (mem_map_of_mem ha)
    exact ⟨by simpa [hne] using hplaced.size, hplaced.pos, hplaced.low, hplaced.high⟩
  case gaps =>
    have hgaps := h.gaps
    rw [pairwise_append, pairwise_cons] at hgaps ⊢
    refine ⟨hgaps.1, ⟨hgap, hgaps.2.1.2⟩, ?_⟩
    intro f hf g hg
    rcases mem_cons.mp hg with rfl | hg
    · exact hgaps.2.2 f hf a mem_cons_self
    · exact hgaps.2.2 f hf g (mem_cons_of_mem a hg)
  case apart => exact h.apart
  case disjoint =>
    intro f hf x hx
    rcases hmem f hf with rfl | ⟨hf, _⟩
    · exact hapart x hx
    · exact h.disjoint f hf x hx
  case brk => exact h.brk

theorem insert (h : HeapOk base m (l₁ ++ l₂) (b :: L)) (hlow : ∀ f ∈ l₁, f.stop < b.addr)
    (hhigh : ∀ f ∈ l₂, b.stop < f.addr) :
    HeapOk base ((m.setPtr b.addr (m.next (lastNode base l₁))).setPtr (lastNode base l₁) b.addr)
      (l₁ ++ b :: l₂) L := by
  obtain ⟨q, hq⟩ := nodes_append base l₁
  have hnot := h.not_node (mem_cons_self (a := b))
  have hused := h.used b mem_cons_self
  constructor
  case cycle =>
    have hcycle := h.cycle
    have hnodup := h.nodup
    rw [hq] at hcycle hnodup hnot
    rw [nodup_append, nodup_cons] at hnodup
    have hlast : lastNode base l₁ ∉ l₂.map (·.addr) ++ q := by
      rw [mem_append, not_or]
      refine ⟨hnodup.2.1.1, ?_⟩
      intro hmem
      exact hnodup.2.2 _ hmem _ mem_cons_self rfl
    have hfresh : b.addr ∉ lastNode base l₁ :: (l₂.map (·.addr) ++ q) := by
      intro hmem
      refine hnot ?_
      simp only [mem_cons, mem_append] at hmem ⊢
      tauto
    have hinserted := Cycle.insert (l := l₂.map (·.addr) ++ q) hcycle.rotate hlast hfresh
    rw [hq, map_cons, UserMem.next_setPtr, UserMem.next_setPtr]
    exact hinserted.rotate (l := lastNode base l₁ :: b.addr :: l₂.map (·.addr))
  case baseSize => simpa using h.baseSize
  case free =>
    intro f hf
    have hplaced : BlockPlaced base m f := by
      rcases mem_append.mp hf with hf | hf
      · exact h.free f (mem_append_left _ hf)
      · rcases mem_cons.mp hf with rfl | hf
        · exact hused
        · exact h.free f (mem_append_right _ hf)
    exact ⟨by simpa using hplaced.size, hplaced.pos, hplaced.low, hplaced.high⟩
  case used =>
    intro x hx
    have hplaced := h.used x (mem_cons_of_mem b hx)
    exact ⟨by simpa using hplaced.size, hplaced.pos, hplaced.low, hplaced.high⟩
  case gaps =>
    have hgaps := h.gaps
    rw [pairwise_append] at hgaps
    rw [pairwise_append, pairwise_cons]
    refine ⟨hgaps.1, ⟨hhigh, hgaps.2.1⟩, ?_⟩
    intro f hf g hg
    rcases mem_cons.mp hg with rfl | hg
    · exact hlow f hf
    · exact hgaps.2.2 f hf g hg
  case apart => exact h.apart.of_cons
  case disjoint =>
    intro f hf x hx
    rcases mem_append.mp hf with hf | hf
    · exact h.disjoint f (mem_append_left _ hf) x (mem_cons_of_mem b hx)
    · rcases mem_cons.mp hf with rfl | hf
      · exact (pairwise_cons.mp h.apart).1 x hx
      · exact h.disjoint f (mem_append_right _ hf) x (mem_cons_of_mem b hx)
  case brk => exact h.brk

/-! ## `free` -/

theorem addr_ne_lastNode (h : HeapOk base m (l₁ ++ l₂) (b :: L)) : b.addr ≠ lastNode base l₁ := by
  intro heq
  refine h.not_node mem_cons_self ?_
  rw [heq]
  exact lastNode_mem_append base l₁ l₂

theorem addr_ne_used (h : HeapOk base m F (b :: L)) {x : HeapBlock} (hx : x ∈ L) :
    x.addr ≠ b.addr := by
  have hapart := (pairwise_cons.mp h.apart).1 x hx
  exact (hapart.addr_ne (h.used b mem_cons_self).pos (h.used x (mem_cons_of_mem b hx)).pos).symm

theorem free_apart {d : HeapBlock} (h : HeapOk base m (l₁ ++ d :: l₂) L) :
    ∀ f ∈ l₁ ++ l₂, d.Apart f := by
  have hgaps := h.gaps
  rw [pairwise_append, pairwise_cons] at hgaps
  intro f hf
  rcases mem_append.mp hf with hf | hf
  · exact Or.inr (hgaps.2.2 f hf d mem_cons_self).le
  · exact Or.inl (hgaps.2.1.1 f hf).le

theorem joinUpper_apart (h : HeapOk base m (l₁ ++ l₂) (b :: L)) (hhigh : ∀ f ∈ l₂, b.stop ≤ f.addr)
    (htouch : b.stop ≠ m.next (lastNode base l₁)) : ∀ f ∈ l₂, b.stop < f.addr := by
  cases l₂ with
  | nil => simp
  | cons d r =>
    rw [h.next_lastNode_cons] at htouch
    have hd : b.stop < d.addr := lt_of_le_of_ne (hhigh d mem_cons_self) htouch
    have hgaps := h.gaps
    rw [pairwise_append, pairwise_cons] at hgaps
    rw [forall_mem_cons]
    refine ⟨hd, fun f hf => ?_⟩
    have hgap := hgaps.2.1.1 f hf
    rw [stop] at hgap
    omega

theorem joinUpper_touch {d : HeapBlock} (h : HeapOk base m (l₁ ++ d :: l₂) (b :: L))
    (htouch : b.stop = d.addr) :
    HeapOk base (((m.setSize b.addr (b.size + d.size)).setPtr b.addr (m.next d.addr)).setPtr
      (lastNode base l₁) (m.next d.addr)) (l₁ ++ l₂) (⟨b.addr, b.size + d.size⟩ :: L) := by
  have hb := h.used b mem_cons_self
  have hmem : d ∈ l₁ ++ d :: l₂ := by simp
  have hd := h.free d hmem
  have hsub : ∀ f ∈ l₁ ++ l₂, f ∈ l₁ ++ d :: l₂ := ((sublist_cons_self d l₂).append_left l₁).subset
  have hne := h.addr_ne_lastNode
  have hframe : HeapOk base (((m.setSize b.addr (b.size + d.size)).setPtr b.addr
      (m.next d.addr)).setPtr (lastNode base l₁) (m.next d.addr)) (l₁ ++ l₂) L := by
    have hnode : ∀ z ∈ nodes base (l₁ ++ l₂), z ≠ b.addr := by
      rintro z hz rfl
      refine h.not_node mem_cons_self ?_
      simp only [nodes, mem_cons, mem_map] at hz ⊢
      rcases hz with hz | ⟨f, hf, heq⟩
      · exact Or.inl hz
      · exact Or.inr ⟨f, hsub f hf, heq⟩
    refine h.tail.unlink.frame ?_ ?_ ?_ rfl
    · intro z hz
      by_cases hzp : z = lastNode base l₁
      · simp [hzp]
      · simp [hzp, hnode z hz]
    · intro z hz
      simp [hnode z hz]
    · intro x hx
      simp [h.addr_ne_used hx]
  refine hframe.cons_live ⟨by simp, ?_, hb.low, ?_⟩ ?_ ?_
  · exact Nat.add_pos_left hb.pos _
  · have hstop := hd.high
    simp only [stop] at htouch hstop ⊢
    simp only [UserMem.brk_setPtr, UserMem.brk_setSize]
    omega
  · intro x hx
    exact HeapBlock.Apart.join htouch (h.used x (mem_cons_of_mem b hx)).pos
      ((pairwise_cons.mp h.apart).1 x hx)
      (h.disjoint d hmem x (mem_cons_of_mem b hx))
  · intro f hf
    exact (HeapBlock.Apart.join htouch (h.free f (hsub f hf)).pos
      (h.disjoint f (hsub f hf) b mem_cons_self).symm (h.free_apart f hf)).symm

theorem joinUpper (h : HeapOk base m (l₁ ++ l₂) (b :: L)) (hhigh : ∀ f ∈ l₂, b.stop ≤ f.addr)
    (hm : m' = m.joinUpper b.addr (lastNode base l₁)) :
    ∃ c r, c.addr = b.addr ∧ b.size ≤ c.size ∧ (∀ f ∈ r, f ∈ l₂ ∧ c.stop < f.addr) ∧
      c.size + units r = b.size + units l₂ ∧
      HeapOk base (m'.setPtr (lastNode base l₁) (m'.next b.addr)) (l₁ ++ r) (c :: L) := by
  have hb := h.used b mem_cons_self
  rw [UserMem.joinUpper, hb.size] at hm
  by_cases htouch : b.addr + 8 * b.size = m.next (lastNode base l₁)
  · rw [if_pos htouch] at hm
    cases l₂ with
    | nil =>
      rw [append_nil] at h
      have hlow := hb.low
      rw [h.next_lastNode_nil] at htouch
      omega
    | cons d r =>
      have hnext := h.next_lastNode_cons
      have hd : m.size d.addr = d.size := (h.free d (by simp)).size
      rw [hnext] at htouch hm
      rw [hd] at hm
      refine ⟨⟨b.addr, b.size + d.size⟩, r, rfl, Nat.le_add_right .., ?_, ?_, ?_⟩
      · intro f hf
        have hgaps := h.gaps
        rw [pairwise_append, pairwise_cons] at hgaps
        have hgap := hgaps.2.1.1 f hf
        simp only [stop] at hgap htouch ⊢
        exact ⟨mem_cons_of_mem d hf, by omega⟩
      · rw [units_cons, Nat.add_assoc]
      · have hjoined := h.joinUpper_touch htouch
        subst hm
        simpa using hjoined
  · rw [if_neg htouch] at hm
    refine ⟨b, l₂, rfl, le_refl _, fun f hf => ⟨hf, h.joinUpper_apart hhigh htouch f hf⟩, rfl, ?_⟩
    subst hm
    refine h.frame ?_ ?_ ?_ rfl
    · intro z hz
      by_cases hzp : z = lastNode base l₁
      · simp [hzp]
      · have hzb : z ≠ b.addr := by
          rintro rfl
          exact h.not_node mem_cons_self hz
        simp [hzp, hzb]
    · intro z _
      simp
    · intro x _
      simp

theorem joinLower_apart (h : HeapOk base m (l₁ ++ l₂) L) {x : ℕ} (hlow : ∀ f ∈ l₁, f.stop ≤ x)
    (htouch : lastNode base l₁ + 8 * m.size (lastNode base l₁) ≠ x) : ∀ f ∈ l₁, f.stop < x := by
  rcases eq_nil_or_concat' l₁ with rfl | ⟨l, a, rfl⟩
  · simp
  · have ha := h.free a (by simp)
    rw [lastNode_concat, ha.size] at htouch
    have hlast : a.stop < x := lt_of_le_of_ne (hlow a (by simp)) htouch
    have hgaps := (pairwise_append.mp h.gaps).1
    rw [pairwise_append] at hgaps
    intro f hf
    rcases mem_append.mp hf with hf | hf
    · have hgap := hgaps.2.2 f hf a mem_cons_self
      rw [stop] at hlast
      omega
    · obtain rfl := mem_singleton.mp hf
      exact hlast

theorem joinLower {c : HeapBlock} {p : ℕ} (hp : p = lastNode base l₁)
    (h : HeapOk base (m.setPtr p (m.next c.addr)) (l₁ ++ l₂) (c :: L))
    (hlow : ∀ f ∈ l₁, f.stop ≤ c.addr) (hhigh : ∀ f ∈ l₂, c.stop < f.addr) :
    ∃ F, HeapOk base (m.joinLower c.addr p) F L ∧ p ∈ nodes base F ∧
      units F = units (l₁ ++ l₂) + c.size ∧ (∃ f ∈ F, c.size ≤ f.size) ∧
      ∀ f ∈ F, f.addr = c.addr ∨ ∃ g ∈ l₁ ++ l₂, g.addr = f.addr := by
  have hc := h.used c mem_cons_self
  have hcsize : m.size c.addr = c.size := by simpa using hc.size
  rw [UserMem.joinLower]
  by_cases htouch : p + 8 * m.size p = c.addr
  · rw [if_pos htouch]
    rcases eq_nil_or_concat' l₁ with rfl | ⟨l, a, rfl⟩
    · -- `base` has no units, and touches nothing
      have hbase : m.size p = 0 := by simpa [hp] using h.baseSize
      have hbelow := hc.low
      rw [lastNode_nil] at hp
      omega
    · rw [lastNode_concat] at hp
      subst p
      rw [append_assoc, singleton_append] at h
      have ha := h.free a (by simp)
      have hasize : m.size a.addr = a.size := by simpa using ha.size
      rw [hasize] at htouch
      have hgrown := h.tail.resize (n := a.size + c.size) (Nat.add_pos_left ha.pos _) ?_ ?_ ?_
      · refine ⟨l ++ ⟨a.addr, a.size + c.size⟩ :: l₂, ?_, by simp [nodes], ?_,
          ⟨⟨a.addr, a.size + c.size⟩, by simp, Nat.le_add_left ..⟩, ?_⟩
        · refine hgrown.frame ?_ ?_ ?_ rfl
          · intro z _
            simp
          · intro z _
            simp [hasize, hcsize]
          · intro x _
            simp [hasize, hcsize]
        · simp only [units_append, units_cons, units_nil]
          omega
        · intro f hf
          simp only [mem_append, mem_cons] at hf
          rcases hf with hf | rfl | hf
          · exact Or.inr ⟨f, by simp [hf], rfl⟩
          · exact Or.inr ⟨a, by simp, rfl⟩
          · exact Or.inr ⟨f, by simp [hf], rfl⟩
      · have hhigh' := hc.high
        rw [stop] at hhigh'
        omega
      · intro f hf
        have hgap := hhigh f hf
        rw [stop] at hgap
        omega
      · intro x hx
        exact HeapBlock.Apart.join htouch (h.used x (mem_cons_of_mem c hx)).pos
          (h.disjoint a (by simp) x (mem_cons_of_mem c hx))
          ((pairwise_cons.mp h.apart).1 x hx)
  · rw [if_neg htouch]
    have hstrict : ∀ f ∈ l₁, f.stop < c.addr := by
      refine h.joinLower_apart hlow ?_
      subst p
      simpa using htouch
    refine ⟨l₁ ++ c :: l₂, ?_, hp ▸ lastNode_mem_append .., ?_, ⟨c, by simp, le_refl _⟩, ?_⟩
    · subst p
      refine (h.insert hstrict hhigh).frame ?_ ?_ ?_ rfl
      · intro z _
        by_cases hzp : z = lastNode base l₁
        · simp [hzp]
        · by_cases hzc : z = c.addr
          · simp [hzc, h.addr_ne_lastNode]
          · simp [hzp, hzc]
      · intro z _
        simp
      · intro x _
        simp
    · simp only [units_append, units_cons]
      omega
    · intro f hf
      simp only [mem_append, mem_cons] at hf
      rcases hf with hf | rfl | hf
      · exact Or.inr ⟨f, by simp [hf], rfl⟩
      · exact Or.inl rfl
      · exact Or.inr ⟨f, by simp [hf], rfl⟩

theorem free_ok (h : HeapOk base m F (b :: L)) (hfreep : m.freep ∈ nodes base F)
    (hbrk : base < m.brk) :
    ∃ m' F', m.free (b.addr + 8) = .ok m' ∧ HeapOk base m' F' L ∧ m'.freep ∈ nodes base F' ∧
      m'.brk = m.brk ∧ units F' = units F + b.size ∧ (∃ f ∈ F', b.size ≤ f.size) ∧
      ∀ f ∈ F', f.addr = b.addr ∨ ∃ g ∈ F, g.addr = f.addr := by
  have hb := h.used b mem_cons_self
  obtain ⟨l₁, l₂, rfl, hlow, hhigh⟩ := exists_split h.gaps b.addr
  have hbelow : ∀ f ∈ l₁, f.stop ≤ b.addr := by
    intro f hf
    have hapart := h.disjoint f (mem_append_left _ hf) b mem_cons_self
    have hlt := hlow f hf
    have hpos := hb.pos
    simp only [HeapBlock.Apart, stop] at hapart ⊢
    omega
  have habove : ∀ f ∈ l₂, b.stop ≤ f.addr := by
    intro f hf
    have hmem := mem_append_right l₁ hf
    have hapart := h.disjoint f hmem b mem_cons_self
    have hle := hhigh f hf
    have hpos := (h.free f hmem).pos
    simp only [HeapBlock.Apart, stop] at hapart ⊢
    omega
  have hbase : base < b.addr := by
    have hlow' := hb.low
    omega
  have hstrict : ∀ f ∈ l₂, b.addr < f.addr := by
    intro f hf
    have hle := habove f hf
    have hpos := hb.pos
    rw [stop] at hle
    omega
  have hwalk := h.walk_between hfreep hbrk hbase hlow hstrict
  obtain ⟨c, r, hcaddr, hcsize, hcabove, hunits, hupper⟩ := h.joinUpper habove rfl
  rw [← hcaddr] at hupper hbelow
  obtain ⟨F', hlower, hp, hunits', ⟨f, hf, hfsize⟩, haddr⟩ :=
    joinLower rfl hupper hbelow fun f hf => (hcabove f hf).2
  rw [hcaddr] at hlower
  refine ⟨{ (m.joinUpper b.addr (lastNode base l₁)).joinLower b.addr (lastNode base l₁) with
    freep := lastNode base l₁ }, F', ?_, ?_, hp, ?_, ?_, ⟨f, hf, hcsize.trans hfsize⟩, ?_⟩
  · simp only [UserMem.free, Nat.add_sub_cancel, hwalk]
    rfl
  · exact hlower.frame (fun _ _ => rfl) (fun _ _ => rfl) (fun _ _ => rfl) rfl
  · rw [UserMem.brk_joinLower, UserMem.brk_joinUpper]
  · rw [hunits']
    simp only [units_append]
    omega
  · intro x hx
    refine (haddr x hx).imp (·.trans hcaddr) ?_
    rintro ⟨g, hg, hgx⟩
    refine ⟨g, ?_, hgx⟩
    rcases mem_append.mp hg with hg | hg
    · exact mem_append_left _ hg
    · exact mem_append_right _ (hcabove g hg).1

end HeapOk

end Xv6Kernel
