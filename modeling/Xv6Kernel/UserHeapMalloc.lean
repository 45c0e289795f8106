import Xv6Kernel.UserHeapCalls

/-!
# What `malloc` finds

The loop of `malloc` goes round the free list once.  If a block is large enough, it is
taken or its end is cut off; otherwise `morecore` gives new memory to `free`, after
which there is such a block, or fails.
-/

namespace Xv6Kernel

open TraceExecution LinkedCycle List UserMem

theorem HeapBlock.Apart.part {b c x : HeapBlock} (h : b.Apart x) (hlow : b.addr ≤ c.addr)
    (hhigh : c.stop ≤ b.stop) : c.Apart x := by
  simp only [HeapBlock.Apart, HeapBlock.stop] at *
  omega

namespace HeapOk

variable {base n : ℕ} {m m' : UserMem} {F L l₁ l₂ : List HeapBlock} {f b : HeapBlock}

theorem new_live (h : HeapOk base m F L) (hpos : 0 < b.size) (hlow : base + 8 ≤ b.addr)
    (hhigh : b.stop ≤ m.brk) (hapart : ∀ x ∈ L, b.Apart x) (hdisjoint : ∀ f ∈ F, f.Apart b) :
    HeapOk base (m.setSize b.addr b.size) F (b :: L) := by
  have hframe : HeapOk base (m.setSize b.addr b.size) F L := by
    refine h.frame ?_ ?_ ?_ rfl
    · intro z _
      rw [next_setSize]
    · intro z hz
      have hne : z ≠ b.addr := by
        rcases mem_cons.mp hz with rfl | hz
        · omega
        · obtain ⟨f, hf, rfl⟩ := mem_map.mp hz
          exact (hdisjoint f hf).addr_ne (h.free f hf).pos hpos
      rw [size_setSize, Function.update_of_ne hne]
    · intro x hx
      have hne := (hapart x hx).addr_ne hpos (h.used x hx).pos
      rw [size_setSize, Function.update_of_ne hne.symm]
  exact hframe.cons_live ⟨by simp, hpos, hlow, hhigh⟩ hapart hdisjoint

theorem carve_whole (h : HeapOk base m (l₁ ++ f :: l₂) L) :
    HeapOk base { m.setPtr (lastNode base l₁) (m.next f.addr) with freep := lastNode base l₁ }
      (l₁ ++ l₂) (f :: L) := by
  have hmem : f ∈ l₁ ++ f :: l₂ := by simp
  have hf := h.free f hmem
  have hframe : HeapOk base
      { m.setPtr (lastNode base l₁) (m.next f.addr) with freep := lastNode base l₁ }
      (l₁ ++ l₂) L :=
    h.unlink.frame (fun _ _ => rfl) (fun _ _ => rfl) (fun _ _ => rfl) rfl
  refine hframe.cons_live ⟨?_, hf.pos, hf.low, hf.high⟩ (h.disjoint f hmem) ?_
  · have hsize := congrFun (size_setPtr m (lastNode base l₁) (m.next f.addr)) f.addr
    exact hsize.trans hf.size
  · exact fun g hg => (h.free_apart g hg).symm

theorem carve_part (h : HeapOk base m (l₁ ++ f :: l₂) L) (hn : 0 < n) (hlt : n < f.size) :
    HeapOk base { (m.setSize f.addr (f.size - n)).setSize (f.addr + 8 * (f.size - n)) n with
        freep := lastNode base l₁ }
      (l₁ ++ ⟨f.addr, f.size - n⟩ :: l₂) (⟨f.addr + 8 * (f.size - n), n⟩ :: L) := by
  have hmem : f ∈ l₁ ++ f :: l₂ := by simp
  have hf := h.free f hmem
  have hhigh := hf.high
  have hlow := hf.low
  have hstop : f.addr + 8 * (f.size - n) + 8 * n = f.stop := by
    rw [HeapBlock.stop]
    omega
  have hbelow : ∀ g ∈ l₂, f.stop < g.addr := by
    have hgaps := h.gaps
    rw [pairwise_append, pairwise_cons] at hgaps
    exact hgaps.2.1.1
  have hresized := h.resize (n := f.size - n) (by omega) (by omega) ?_ ?_
  · have hpart : ∀ x, f.Apart x → HeapBlock.Apart ⟨f.addr + 8 * (f.size - n), n⟩ x :=
      fun x hx => hx.part (Nat.le_add_right ..) hstop.le
    have hnew := hresized.new_live (b := ⟨f.addr + 8 * (f.size - n), n⟩) hn ?_ ?_ ?_ ?_
    · exact hnew.frame (fun _ _ => rfl) (fun _ _ => rfl) (fun _ _ => rfl) rfl
    · exact hlow.trans (Nat.le_add_right ..)
    · exact hstop.le.trans hhigh
    · exact fun x hx => hpart x (h.disjoint f hmem x hx)
    · intro g hg
      rcases mem_append.mp hg with hg | hg
      · exact (hpart g (h.free_apart g (mem_append_left _ hg))).symm
      · rcases mem_cons.mp hg with rfl | hg
        · exact Or.inl (le_refl _)
        · exact (hpart g (h.free_apart g (mem_append_right _ hg))).symm
  · intro g hg
    have hgap := hbelow g hg
    omega
  · intro x hx
    refine (h.disjoint f hmem x hx).part (le_refl _) ?_
    rw [← hstop]
    exact Nat.le_add_right ..

theorem carve_ok (h : HeapOk base m (l₁ ++ f :: l₂) L) (hn : 0 < n) (hle : n ≤ f.size) :
    ∃ m' F' b, m.carve n (lastNode base l₁) f.addr = (m', b.addr + 8) ∧ b.size = n ∧
      HeapOk base m' F' (b :: L) ∧ m'.freep ∈ nodes base F' ∧ m'.brk = m.brk ∧
      units F' + n = units (l₁ ++ f :: l₂) ∧
      ∀ x ∈ b :: F', ∃ g ∈ l₁ ++ f :: l₂, g.addr ≤ x.addr := by
  have hsize := (h.free f (by simp)).size
  simp only [carve, hsize]
  by_cases heq : f.size = n
  · rw [if_pos heq]
    refine ⟨_, l₁ ++ l₂, f, rfl, heq, h.carve_whole, lastNode_mem_append .., rfl, ?_, ?_⟩
    · simp only [units_append, units_cons]
      omega
    · intro x hx
      exact ⟨x, perm_middle.mem_iff.mpr hx, le_refl _⟩
  · rw [if_neg heq]
    have hlt : n < f.size := lt_of_le_of_ne hle (Ne.symm heq)
    have hpart := h.carve_part hn hlt
    refine ⟨_, _, ⟨f.addr + 8 * (f.size - n), n⟩, ?_, rfl, hpart, lastNode_mem_append .., rfl,
      ?_, ?_⟩
    · simp
    · simp only [units_append, units_cons]
      omega
    · intro x hx
      simp only [mem_cons, mem_append] at hx
      rcases hx with rfl | hx | rfl | hx
      · exact ⟨f, by simp, Nat.le_add_right ..⟩
      · exact ⟨x, by simp [hx], le_refl _⟩
      · exact ⟨f, by simp, le_refl _⟩
      · exact ⟨x, by simp [hx], le_refl _⟩

end HeapOk

theorem UserMem.growproc_up (grow : ℕ → Bool) {brk n : ℕ} (hbrk : brk < kernbase) (hpos : 0 < n)
    (hn : n < 2 ^ 31) :
    growproc grow brk n = 0 ∨ (growproc grow brk n = brk + n ∧ brk + n < kernbase) := by
  have hsum : (brk + n) % 2 ^ 32 = brk + n := by
    rw [kernbase] at hbrk
    omega
  rw [growproc, hsum, if_neg hpos.ne', if_pos hn]
  split_ifs
  · exact Or.inl rfl
  · omega
  · exact Or.inr ⟨rfl, by omega⟩
  · exact Or.inl rfl

theorem UserMem.mallocLoop_skip (grow : ℕ → Bool) (fuel : ℕ) {n x y : ℕ} {m : UserMem}
    {l : List ℕ} (h : Path m.next x l y) (hsmall : ∀ z ∈ l, m.size z < n) (hfreep : m.freep ∉ l) :
    ∃ prev ∈ x :: l, m.next prev = y ∧
      mallocLoop grow n (l.length + fuel) m x (m.next x) = mallocLoop grow n fuel m prev y := by
  induction l generalizing x with
  | nil =>
    have hnext : m.next x = y := h
    refine ⟨x, mem_cons_self, hnext, ?_⟩
    rw [length_nil, Nat.zero_add, hnext]
  | cons a l ih =>
    rw [mem_cons, not_or] at hfreep
    rw [forall_mem_cons] at hsmall
    obtain ⟨prev, hprev, hnext, hloop⟩ := ih h.2 hsmall.2 hfreep.2
    refine ⟨prev, mem_cons_of_mem x hprev, hnext, ?_⟩
    have hlength : (a :: l).length + fuel = (l.length + fuel) + 1 := by
      rw [length_cons]
      omega
    rw [hlength, h.1, mallocLoop, if_neg (Nat.not_le.mpr hsmall.1), if_neg (Ne.symm hfreep.1)]
    exact hloop

namespace HeapOk

variable {base n : ℕ} {m m' : UserMem} {F L l₁ l₂ : List HeapBlock} {f b : HeapBlock}

theorem exists_block (h : HeapOk base m F L) (hn : 0 < n) {prev z : ℕ} (hprev : prev ∈ nodes base F)
    (hz : z ∈ nodes base F) (hnext : m.next prev = z) (hsize : n ≤ m.size z) :
    ∃ l₁ f l₂, F = l₁ ++ f :: l₂ ∧ z = f.addr ∧ prev = lastNode base l₁ ∧ n ≤ f.size := by
  rcases mem_cons.mp hz with rfl | hz
  · rw [h.baseSize] at hsize
    omega
  · obtain ⟨f, hf, rfl⟩ := mem_map.mp hz
    rw [(h.free f hf).size] at hsize
    obtain ⟨l₁, l₂, rfl⟩ := append_of_mem hf
    refine ⟨l₁, f, l₂, rfl, rfl, ?_, hsize⟩
    refine h.cycle.next_inj h.nodup hprev (lastNode_mem_append ..) ?_
    rw [hnext, h.next_lastNode_cons]

theorem mallocLoop_round (grow : ℕ → Bool) (fuel : ℕ) (h : HeapOk base m F L)
    (hfreep : m.freep ∈ nodes base F) (hn : 0 < n) :
    (∃ l₁ f l₂, F = l₁ ++ f :: l₂ ∧ n ≤ f.size ∧
      mallocLoop grow n ((nodes base F).length + fuel) m m.freep (m.next m.freep) =
        .ok (m.carve n (lastNode base l₁) f.addr)) ∨
    ((∀ f ∈ F, f.size < n) ∧
      mallocLoop grow n ((nodes base F).length + fuel) m m.freep (m.next m.freep) = do
        let (m, p) ← morecore grow m n
        if p = 0 then return (m, 0)
        else mallocLoop grow n fuel m p (m.next p)) := by
  obtain ⟨c₁, c₂, hsplit⟩ := append_of_mem hfreep
  have hcycle := h.cycle
  have hperm : (m.freep :: c₂ ++ c₁).Perm (nodes base F) := by
    rw [hsplit]
    exact perm_append_comm
  have hnodup := hperm.nodup_iff.mpr h.nodup
  have hlength := hperm.length_eq
  have hmem := fun z => hperm.mem_iff (a := z)
  rw [hsplit] at hcycle
  have hpath : Path m.next m.freep (c₂ ++ c₁) m.freep := hcycle.rotate
  rw [cons_append] at hnodup hlength hmem
  rw [nodup_cons] at hnodup
  rw [← hlength, length_cons]
  generalize c₂ ++ c₁ = l at *
  cases hfind : l.find? fun z => decide (n ≤ m.size z) with
  | some y =>
    obtain ⟨hy, before, after, rfl, hsmall⟩ := find?_eq_some_iff_append.mp hfind
    rw [path_append] at hpath
    have hbefore : ∀ z ∈ before, m.size z < n := by
      intro z hz
      simpa using hsmall z hz
    have hnot : m.freep ∉ before := fun hb => hnodup.1 (mem_append_left _ hb)
    obtain ⟨prev, hprev, hnext, hloop⟩ := mallocLoop_skip grow
      (after.length + 1 + fuel + 1) hpath.1 hbefore hnot
    have hprev' : prev ∈ nodes base F := by
      refine (hmem prev).mp ?_
      rcases mem_cons.mp hprev with rfl | hb
      · exact mem_cons_self
      · exact mem_cons_of_mem _ (mem_append_left _ hb)
    have hy' : y ∈ nodes base F := (hmem y).mp (by simp)
    have hsize : m.size y ≥ n := by simpa using hy
    obtain ⟨l₁, f, l₂, hF, hz, hlast, hle⟩ := h.exists_block hn hprev' hy' hnext hsize
    refine Or.inl ⟨l₁, f, l₂, hF, hle, ?_⟩
    have hsum : (before ++ y :: after).length + 1 + fuel =
        before.length + (after.length + 1 + fuel + 1) := by
      simp only [length_append, length_cons]
      omega
    rw [hsum, hloop, mallocLoop, if_pos hsize, hlast, hz]
    rfl
  | none =>
    rw [find?_eq_none] at hfind
    have hsmall : ∀ z ∈ l, m.size z < n := by
      intro z hz
      simpa using hfind z hz
    obtain ⟨prev, hprev, hnext, hloop⟩ := mallocLoop_skip grow (fuel + 1) hpath hsmall hnodup.1
    rw [Nat.add_assoc, Nat.add_comm 1 fuel, hloop, mallocLoop]
    by_cases hsize : m.size m.freep ≥ n
    · left
      obtain ⟨l₁, f, l₂, hF, hz, hlast, hle⟩ :=
        h.exists_block hn ((hmem prev).mp hprev) hfreep hnext hsize
      refine ⟨l₁, f, l₂, hF, hle, ?_⟩
      rw [if_pos hsize, hlast, hz]
      rfl
    · right
      rw [if_neg hsize, if_pos rfl]
      refine ⟨?_, rfl⟩
      intro f hf
      rw [← (h.free f hf).size]
      have haddr := (hmem f.addr).mpr (mem_cons_of_mem _ (mem_map_of_mem hf))
      rcases mem_cons.mp haddr with heq | hl
      · rw [heq]
        exact Nat.not_le.mp hsize
      · exact hsmall f.addr hl

theorem node_ne_zero (h : HeapOk base m F L) (hbase : 0 < base) {z : ℕ}
    (hz : z ∈ nodes base F) : z ≠ 0 := by
  rcases mem_cons.mp hz with rfl | hz
  · omega
  · obtain ⟨f, hf, rfl⟩ := mem_map.mp hz
    have hlow := (h.free f hf).low
    omega

theorem raise (h : HeapOk base m F L) {x : ℕ} (hle : m.brk ≤ x) (hx : x < kernbase) :
    HeapOk base { m with brk := x } F L where
  cycle := h.cycle
  baseSize := h.baseSize
  free := fun f hf => ⟨(h.free f hf).size, (h.free f hf).pos, (h.free f hf).low,
    (h.free f hf).high.trans hle⟩
  used := fun b hb => ⟨(h.used b hb).size, (h.used b hb).pos, (h.used b hb).low,
    (h.used b hb).high.trans hle⟩
  gaps := h.gaps
  apart := h.apart
  disjoint := h.disjoint
  brk := hx

theorem morecore_ok (grow : ℕ → Bool) (n : ℕ) (h : HeapOk base m F L)
    (hfreep : m.freep ∈ nodes base F) (hbase : 0 < base) (hbrk : base + 8 ≤ m.brk)
    (hn : 8 * n < 2 ^ 31) :
    morecore grow m n = .ok (m, 0) ∨
    ∃ m' F' nu, morecore grow m n = .ok (m', m'.freep) ∧ m'.freep ≠ 0 ∧
      HeapOk base m' F' L ∧ m'.freep ∈ nodes base F' ∧ m'.brk = m.brk + 8 * nu ∧
      units F' = units F + nu ∧ (∃ f ∈ F', n ≤ f.size) ∧
      ∀ f ∈ F', f.addr = m.brk ∨ ∃ g ∈ F, g.addr = f.addr := by
  obtain ⟨nu, hnu, hpos, hle, hsmall⟩ :
      ∃ nu, nu = (if n < 4096 then 4096 else n) ∧ 0 < nu ∧ n ≤ nu ∧ nu * 8 < 2 ^ 31 := by
    refine ⟨_, rfl, ?_⟩
    split <;> omega
  rw [morecore, ← hnu, Nat.mod_eq_of_lt (by omega)]
  rcases growproc_up grow h.brk (by omega) hsmall with hfail | ⟨hgrow, hbelow⟩
  · left
    rw [hfail]
    rfl
  · right
    rw [hgrow, if_pos (by omega)]
    have hraised := h.raise (Nat.le_add_right m.brk (nu * 8)) hbelow
    have hnew := hraised.new_live (b := ⟨m.brk, nu⟩) hpos hbrk ?_ ?_ ?_
    · obtain ⟨m', F', hfree, hok, hfreep', hbrk', hunits, ⟨f, hf, hsize⟩, haddr⟩ :=
        hnew.free_ok hfreep (show base < m.brk + nu * 8 by omega)
      refine ⟨m', F', nu, ?_, ?_, hok, hfreep', ?_, hunits, ⟨f, hf, hle.trans hsize⟩, haddr⟩
      · simp only [bind_eq_ok, pure_eq_ok]
        exact ⟨m', hfree, rfl⟩
      · exact hok.node_ne_zero hbase hfreep'
      · rw [hbrk', Nat.mul_comm 8 nu]
        rfl
    · rw [HeapBlock.stop, Nat.mul_comm]
    · exact fun x hx => Or.inr (h.used x hx).high
    · exact fun f hf => Or.inl (h.free f hf).high

/-- `malloc` from its loop on returns, and what it returns is a block in use or zero.  No block
begins below the old ones and the old break. -/
theorem mallocLoop_ok (grow : ℕ → Bool) (h : HeapOk base m F L) (hfreep : m.freep ∈ nodes base F)
    (hbase : 0 < base) (hbrk : base + 8 ≤ m.brk) (hn : 0 < n) (hsmall : 8 * n < 2 ^ 31) {start : ℕ}
    (hstart : start ≤ m.brk) (habove : ∀ f ∈ F, start ≤ f.addr) :
    ∃ m' F' nu, m'.freep ∈ nodes base F' ∧ m'.brk = m.brk + 8 * nu ∧
      (∀ f ∈ F', start ≤ f.addr) ∧
      ((mallocLoop grow n heapFuel m m.freep (m.next m.freep) = .ok (m', 0) ∧
          HeapOk base m' F' L ∧ units F' = units F + nu) ∨
        ∃ b, mallocLoop grow n heapFuel m m.freep (m.next m.freep) =
            .ok (m', b.addr + 8) ∧ b.size = n ∧ start ≤ b.addr ∧ HeapOk base m' F' (b :: L) ∧
          units F' + n = units F + nu) := by
  have hlength := h.length_le (show base < m.brk by omega)
  have henough : 2 ^ 31 + 2 ^ 31 ≤ heapFuel := by decide
  obtain ⟨fuel, hfuel⟩ := Nat.exists_eq_add_of_le
    (hlength.trans ((Nat.le_add_right _ _).trans henough))
  rw [hfuel]
  rcases h.mallocLoop_round grow fuel hfreep hn with
    ⟨l₁, f, l₂, rfl, hle, hloop⟩ | ⟨-, hloop⟩
  · obtain ⟨m', F', b, hcarve, hsize, hok, hfreep', hbrk', hunits, haddr⟩ := h.carve_ok hn hle
    rw [forall_mem_cons] at haddr
    have hall : ∀ x, (∃ g ∈ l₁ ++ f :: l₂, g.addr ≤ x) → start ≤ x := by
      rintro x ⟨g, hg, hgx⟩
      exact (habove g hg).trans hgx
    refine ⟨m', F', 0, hfreep', hbrk', fun x hx => hall _ (haddr.2 x hx),
      Or.inr ⟨b, ?_, hsize, hall _ haddr.1, hok, hunits⟩⟩
    rw [hloop, hcarve]
  · rw [hloop]
    rcases h.morecore_ok grow n hfreep hbase hbrk hsmall with
      hmore | ⟨m₁, F₁, nu, hmore, hne, hok₁, hfreep₁, hbrk₁, hunits₁, ⟨f, hf, hle⟩, haddr₁⟩
    · refine ⟨m, F, 0, hfreep, rfl, habove, Or.inl ⟨?_, h, rfl⟩⟩
      rw [hmore]
      rfl
    · -- the block that was just freed, or the one it was joined with, is large enough
      have hlength₁ := hok₁.length_le (show base < m₁.brk by omega)
      obtain ⟨fuel₁, rfl⟩ := Nat.exists_eq_add_of_le (hlength₁.trans (show 2 ^ 31 ≤ fuel by omega))
      have habove₁ : ∀ f ∈ F₁, start ≤ f.addr := by
        intro f hf
        rcases haddr₁ f hf with hbrk | ⟨g, hg, hgf⟩
        · exact hstart.trans hbrk.ge
        · exact hgf ▸ habove g hg
      rcases hok₁.mallocLoop_round grow fuel₁ hfreep₁ hn with
        ⟨l₁, d, l₂, rfl, hled, hloop₁⟩ | ⟨hnone, -⟩
      · obtain ⟨m', F', b, hcarve, hsize, hok, hfreep', hbrk', hunits, haddr⟩ :=
          hok₁.carve_ok hn hled
        rw [forall_mem_cons] at haddr
        have hall : ∀ x, (∃ g ∈ l₁ ++ d :: l₂, g.addr ≤ x) → start ≤ x := by
          rintro x ⟨g, hg, hgx⟩
          exact (habove₁ g hg).trans hgx
        refine ⟨m', F', nu, hfreep', hbrk'.trans hbrk₁, fun x hx => hall _ (haddr.2 x hx),
          Or.inr ⟨b, ?_, hsize, hall _ haddr.1, hok, ?_⟩⟩
        · simp only [hmore, bind_eq_ok, Except.ok.injEq, exists_eq_left', if_neg hne]
          rw [hloop₁, hcarve]
        · rw [hunits, hunits₁]
      · exact absurd hle (Nat.not_le.mpr (hnone f hf))

theorem first (hx : m.brk < kernbase) :
    HeapOk base { (m.setPtr base base).setSize base 0 with freep := base } [] [] where
  cycle := by
    have hnext : ((m.setPtr base base).setSize base 0).next base = base := by simp
    exact hnext
  baseSize := by
    have hsize : ((m.setPtr base base).setSize base 0).size base = 0 := by simp
    exact hsize
  free := by simp
  used := by simp
  gaps := List.Pairwise.nil
  apart := List.Pairwise.nil
  disjoint := by simp
  brk := hx

end HeapOk

end Xv6Kernel
