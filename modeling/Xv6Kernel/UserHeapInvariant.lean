import Xv6Kernel.UserHeap

/-!
# The free list of the allocator

The free blocks are linked in the order of their addresses, behind `base`, which lies
below all of them; the last one is linked to `base`.  They do not touch one another,
and no two blocks overlap.
-/

namespace Xv6Kernel

open TraceExecution LinkedCycle List

def HeapBlock.Apart (a b : HeapBlock) : Prop := a.stop ≤ b.addr ∨ b.stop ≤ a.addr

theorem HeapBlock.Apart.addr_ne {a b : HeapBlock} (h : a.Apart b) (ha : 0 < a.size)
    (hb : 0 < b.size) : a.addr ≠ b.addr := by
  simp only [HeapBlock.Apart, HeapBlock.stop] at h
  omega

namespace UserMem

section Fields

variable (m : UserMem) (a x : ℕ)

@[simp] theorem next_setPtr : (m.setPtr a x).next = Function.update m.next a x := by
  funext c
  by_cases hc : c = a
  · subst c
    simp [setPtr, next]
  · simp [setPtr, next, hc]

@[simp] theorem size_setPtr : (m.setPtr a x).size = m.size := by
  funext c
  by_cases hc : c = a
  · subst c
    simp [setPtr, size]
  · simp [setPtr, size, hc]

@[simp] theorem next_setSize : (m.setSize a x).next = m.next := by
  funext c
  by_cases hc : c = a
  · subst c
    simp [setSize, next]
  · simp [setSize, next, hc]

@[simp] theorem size_setSize : (m.setSize a x).size = Function.update m.size a x := by
  funext c
  by_cases hc : c = a
  · subst c
    simp [setSize, size]
  · simp [setSize, size, hc]

@[simp] theorem brk_setPtr : (m.setPtr a x).brk = m.brk := rfl

@[simp] theorem brk_setSize : (m.setSize a x).brk = m.brk := rfl

@[simp] theorem freep_setPtr : (m.setPtr a x).freep = m.freep := rfl

@[simp] theorem freep_setSize : (m.setSize a x).freep = m.freep := rfl

end Fields

end UserMem

def nodes (base : ℕ) (F : List HeapBlock) : List ℕ := base :: F.map (·.addr)

/-- The block lies in the heap and its header has its size. -/
structure BlockPlaced (base : ℕ) (m : UserMem) (b : HeapBlock) : Prop where
  size : m.size b.addr = b.size
  pos : 0 < b.size
  low : base + 8 ≤ b.addr
  high : b.stop ≤ m.brk

/-- The blocks `F` are free and the blocks `L` are in use. -/
structure HeapOk (base : ℕ) (m : UserMem) (F L : List HeapBlock) : Prop where
  cycle : Cycle m.next (nodes base F)
  baseSize : m.size base = 0
  free : ∀ f ∈ F, BlockPlaced base m f
  used : ∀ b ∈ L, BlockPlaced base m b
  gaps : F.Pairwise fun a b => a.stop < b.addr
  apart : L.Pairwise HeapBlock.Apart
  disjoint : ∀ f ∈ F, ∀ b ∈ L, HeapBlock.Apart f b
  brk : m.brk < kernbase

namespace HeapOk

variable {base : ℕ} {m m' : UserMem} {F L : List HeapBlock} {b : HeapBlock}

section

variable (h : HeapOk base m F L)

include h

theorem sorted : (nodes base F).Pairwise (· < ·) := by
  rw [nodes, pairwise_cons, pairwise_map]
  constructor
  · intro a ha
    obtain ⟨f, hf, rfl⟩ := mem_map.mp ha
    have hlow := (h.free f hf).low
    omega
  · refine h.gaps.imp ?_
    intro a c hac
    simp only [HeapBlock.stop] at hac
    omega

theorem nodup : (nodes base F).Nodup := h.sorted.imp Nat.ne_of_lt

theorem node_lt (hbase : base < m.brk) {a : ℕ} (ha : a ∈ nodes base F) : a < m.brk := by
  rcases mem_cons.mp ha with rfl | ha
  · exact hbase
  · obtain ⟨f, hf, rfl⟩ := mem_map.mp ha
    have hpos := (h.free f hf).pos
    have hhigh := (h.free f hf).high
    simp only [HeapBlock.stop] at hhigh
    omega

theorem length_le (hbase : base < m.brk) : (nodes base F).length ≤ 2 ^ 31 := by
  have hsubset : nodes base F ⊆ range (2 ^ 31) := by
    intro a ha
    rw [mem_range]
    exact (h.node_lt hbase ha).trans h.brk
  have hle := (subperm_of_subset h.nodup hsubset).length_le
  rwa [length_range] at hle

theorem not_node (hb : b ∈ L) : b.addr ∉ nodes base F := by
  have hlow := (h.used b hb).low
  intro hmem
  rcases mem_cons.mp hmem with heq | hmem
  · omega
  · obtain ⟨f, hf, heq⟩ := mem_map.mp hmem
    exact (h.disjoint f hf b hb).addr_ne (h.free f hf).pos (h.used b hb).pos heq

theorem perm {L' : List HeapBlock} (hperm : L.Perm L') : HeapOk base m F L' where
  cycle := h.cycle
  baseSize := h.baseSize
  free := h.free
  used := fun b hb => h.used b (hperm.mem_iff.mpr hb)
  gaps := h.gaps
  apart := (hperm.pairwise_iff fun hab => Or.symm hab).mp h.apart
  disjoint := fun f hf b hb => h.disjoint f hf b (hperm.mem_iff.mpr hb)
  brk := h.brk

end

end HeapOk

theorem exists_split {F : List HeapBlock} (hF : F.Pairwise fun a b => a.stop < b.addr) (x : ℕ) :
    ∃ l₁ l₂, F = l₁ ++ l₂ ∧ (∀ f ∈ l₁, f.addr < x) ∧ ∀ f ∈ l₂, x ≤ f.addr := by
  induction F with
  | nil => exact ⟨[], [], rfl, by simp, by simp⟩
  | cons a F ih =>
    rw [pairwise_cons] at hF
    by_cases ha : a.addr < x
    · obtain ⟨l₁, l₂, rfl, hlow, hhigh⟩ := ih hF.2
      refine ⟨a :: l₁, l₂, rfl, ?_, hhigh⟩
      intro f hf
      rcases mem_cons.mp hf with rfl | hf
      · exact ha
      · exact hlow f hf
    · refine ⟨[], a :: F, rfl, by simp, ?_⟩
      intro f hf
      rcases mem_cons.mp hf with rfl | hf
      · omega
      · have hgap := hF.1 f hf
        simp only [HeapBlock.stop] at hgap
        omega

def lastNode (base : ℕ) (l : List HeapBlock) : ℕ := (l.getLast?.map (·.addr)).getD base

@[simp] theorem lastNode_nil (base : ℕ) : lastNode base [] = base := rfl

@[simp] theorem lastNode_concat (base : ℕ) (l : List HeapBlock) (a : HeapBlock) :
    lastNode base (l ++ [a]) = a.addr := by
  simp [lastNode]

theorem nodes_append (base : ℕ) (l₁ : List HeapBlock) :
    ∃ q, ∀ l₂ : List HeapBlock,
      nodes base (l₁ ++ l₂) = q ++ lastNode base l₁ :: l₂.map (·.addr) := by
  rcases eq_nil_or_concat' l₁ with rfl | ⟨l, a, rfl⟩
  · exact ⟨[], fun l₂ => rfl⟩
  · refine ⟨nodes base l, fun l₂ => ?_⟩
    rw [lastNode_concat]
    simp [nodes]

theorem lastNode_mem_append (base : ℕ) (l₁ l₂ : List HeapBlock) :
    lastNode base l₁ ∈ nodes base (l₁ ++ l₂) := by
  obtain ⟨q, hq⟩ := nodes_append base l₁
  rw [hq l₂]
  simp

theorem lastNode_mem (base : ℕ) (l : List HeapBlock) : lastNode base l ∈ nodes base l := by
  have hmem := lastNode_mem_append base l []
  rwa [append_nil] at hmem

namespace HeapOk

variable {base : ℕ} {m m' : UserMem} {F L l₁ l₂ : List HeapBlock} {b : HeapBlock}

theorem next_mid (h : HeapOk base m F L) {c₁ c₂ : List ℕ} {z z' : ℕ}
    (hsplit : nodes base F = c₁ ++ z :: z' :: c₂) : m.next z = z' := by
  have hcycle := h.cycle
  rw [hsplit] at hcycle
  exact hcycle.rotate.1

theorem next_last (h : HeapOk base m F L) {c : List ℕ} {z : ℕ}
    (hsplit : nodes base F = c ++ [z]) : m.next z = base := by
  have hcycle := h.cycle
  rw [hsplit] at hcycle
  have hrotated := hcycle.rotate
  cases c with
  | nil =>
    obtain rfl : base = z := (cons.inj hsplit).1
    exact hrotated
  | cons a c =>
    obtain rfl : base = a := (cons.inj hsplit).1
    exact hrotated.1

theorem lastNode_max (h : HeapOk base m (l₁ ++ l₂) L) {x : ℕ} (hbase : base < x)
    (hlow : ∀ f ∈ l₁, f.addr < x) (hhigh : ∀ f ∈ l₂, x < f.addr) :
    lastNode base l₁ < x ∧
      ∀ y ∈ nodes base (l₁ ++ l₂), y < x → y ≤ lastNode base l₁ := by
  constructor
  · rcases mem_cons.mp (lastNode_mem base l₁) with heq | hmem
    · rw [heq]
      exact hbase
    · obtain ⟨f, hf, heq⟩ := mem_map.mp hmem
      rw [← heq]
      exact hlow f hf
  · obtain ⟨q, hq⟩ := nodes_append base l₁
    have hsorted := h.sorted
    rw [hq l₂] at hsorted ⊢
    rw [pairwise_append] at hsorted
    intro y hy hyx
    rcases mem_append.mp hy with hy | hy
    · exact (hsorted.2.2 y hy _ mem_cons_self).le
    · rcases mem_cons.mp hy with rfl | hy
      · exact le_refl _
      · obtain ⟨f, hf, rfl⟩ := mem_map.mp hy
        have hgt := hhigh f hf
        omega

theorem between_iff (h : HeapOk base m (l₁ ++ l₂) L) {x : ℕ} (hbase : base < x)
    (hlow : ∀ f ∈ l₁, f.addr < x) (hhigh : ∀ f ∈ l₂, x < f.addr) {z : ℕ}
    (hz : z ∈ nodes base (l₁ ++ l₂)) : m.between x z = true ↔ z = lastNode base l₁ := by
  obtain ⟨hlast, hmax⟩ := h.lastNode_max hbase hlow hhigh
  have hmem := lastNode_mem_append base l₁ l₂
  have hnot : x ∉ nodes base (l₁ ++ l₂) := by
    intro hx
    rcases mem_cons.mp hx with rfl | hx
    · omega
    · obtain ⟨f, hf, rfl⟩ := mem_map.mp hx
      rcases mem_append.mp hf with hf | hf
      · exact lt_irrefl _ (hlow f hf)
      · exact lt_irrefl _ (hhigh f hf)
  have hsorted := h.sorted
  obtain ⟨c₁, c₂, hsplit⟩ := append_of_mem hz
  simp only [UserMem.between, Bool.or_eq_true, Bool.and_eq_true, decide_eq_true_eq]
  generalize lastNode base l₁ = p at *
  cases c₂ with
  | nil =>
    -- the node with the wrap: it is the largest
    have hnext := h.next_last hsplit
    have hle : ∀ y ∈ nodes base (l₁ ++ l₂), y ≤ z := by
      rw [hsplit] at hsorted ⊢
      rw [pairwise_append] at hsorted
      intro y hy
      rcases mem_append.mp hy with hy | hy
      · exact (hsorted.2.2 y hy z mem_cons_self).le
      · exact (mem_singleton.mp hy).le
    have hbase' := hle base mem_cons_self
    have hp := hle p hmem
    have hz' := hmax z hz
    rw [hnext]
    omega
  | cons z' c₂ =>
    have hnext := h.next_mid hsplit
    have hz' : z' ∈ nodes base (l₁ ++ l₂) := by
      rw [hsplit]
      simp
    have hlt : z < z' := by
      rw [hsplit, pairwise_append, pairwise_cons] at hsorted
      exact hsorted.2.1.1 z' mem_cons_self
    have hgap : p ≤ z ∨ z' ≤ p := by
      rw [hsplit] at hsorted hmem
      rw [pairwise_append, pairwise_cons, pairwise_cons] at hsorted
      rcases mem_append.mp hmem with hmem | hmem
      · exact Or.inl (hsorted.2.2 p hmem z mem_cons_self).le
      · rcases mem_cons.mp hmem with rfl | hmem
        · exact Or.inl (le_refl _)
        · rcases mem_cons.mp hmem with rfl | hmem
          · exact Or.inr (le_refl _)
          · exact Or.inr (hsorted.2.1.2.1 p hmem).le
    have hmax' := hmax z' hz'
    have hne : z' ≠ x := by
      rintro rfl
      exact hnot hz'
    have hmaxz := hmax z hz
    rw [hnext]
    omega

theorem walk_between (h : HeapOk base m (l₁ ++ l₂) L) (hfreep : m.freep ∈ nodes base (l₁ ++ l₂))
    (hbrk : base < m.brk) {x : ℕ} (hbase : base < x) (hlow : ∀ f ∈ l₁, f.addr < x)
    (hhigh : ∀ f ∈ l₂, x < f.addr) :
    LinkedCycle.walk m.next (m.between x) heapFuel m.freep = some (lastNode base l₁) := by
  obtain ⟨c₁, c₂, hsplit⟩ := append_of_mem hfreep
  have hcycle := h.cycle
  have hlength := h.length_le hbrk
  have hmem := lastNode_mem_append base l₁ l₂
  rw [hsplit] at hcycle hlength
  have hperm : ∀ z, z ∈ m.freep :: c₂ ++ c₁ ↔ z ∈ nodes base (l₁ ++ l₂) := by
    intro z
    rw [hsplit]
    exact perm_append_comm.mem_iff
  refine Cycle.walk hcycle.rotate ((hperm _).mpr hmem) ?_ ?_
  · intro z hz
    exact h.between_iff hbase hlow hhigh ((hperm z).mp hz)
  · rw [length_append, length_cons] at hlength
    rw [append_eq, length_append]
    have hfuel : (2 : ℕ) ^ 31 < heapFuel := by decide
    omega

end HeapOk

end Xv6Kernel
