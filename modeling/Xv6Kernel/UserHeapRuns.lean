import Xv6Kernel.UserHeapMalloc

/-!
# The heap in all runs

Whatever a program asks for and gives back, the free list is in order, no two blocks
overlap, and no units are lost; both functions return.
-/

namespace Xv6Kernel

open TraceExecution LinkedCycle List

namespace HeapOk

variable {base : ℕ} {m : UserMem} {F L : List HeapBlock}

theorem one_wrap (h : HeapOk base m F L) : ∃! z, z ∈ nodes base F ∧ m.next z ≤ z := by
  obtain ⟨q, hq⟩ := nodes_append base F
  have hnodes := hq []
  rw [append_nil, map_nil] at hnodes
  refine ⟨lastNode base F, ⟨lastNode_mem base F, ?_⟩, ?_⟩
  · rw [h.next_last hnodes]
    have hsorted := h.sorted
    rcases mem_cons.mp (lastNode_mem base F) with heq | hmem
    · exact heq.ge
    · exact ((pairwise_cons.mp hsorted).1 _ hmem).le
  · rintro z ⟨hz, hwrap⟩
    obtain ⟨c₁, c₂, hsplit⟩ := append_of_mem hz
    cases c₂ with
    | nil =>
      rw [hsplit] at hnodes
      exact (append_inj' hnodes rfl).2 |> singleton_inj.mp
    | cons z' c₂ =>
      have hsorted := h.sorted
      rw [hsplit, pairwise_append, pairwise_cons] at hsorted
      have hlt := hsorted.2.1.1 z' mem_cons_self
      rw [h.next_mid hsplit] at hwrap
      omega

theorem pairwise_apart (h : HeapOk base m F L) : (F ++ L).Pairwise HeapBlock.Apart := by
  rw [pairwise_append]
  refine ⟨h.gaps.imp ?_, h.apart, h.disjoint⟩
  intro a b hab
  exact Or.inl hab.le

theorem not_adjacent (h : HeapOk base m F L) {a b : HeapBlock} (ha : a ∈ F) (hb : b ∈ F) :
    a.stop ≠ b.addr := by
  have hup : F.Pairwise fun a b => a.stop ≠ b.addr := h.gaps.imp Nat.ne_of_lt
  have hdown : F.Pairwise fun a b => b.stop ≠ a.addr := by
    refine h.gaps.imp ?_
    intro a b hab
    simp only [HeapBlock.stop] at hab ⊢
    omega
  refine hup.forall_of_forall_of_flip ?_ hdown ha hb
  intro f hf
  have hpos := (h.free f hf).pos
  rw [HeapBlock.stop]
  omega

end HeapOk

namespace UserHeap

variable {base start : ℕ} {s s' : UserHeap}

def used (s : UserHeap) : List HeapBlock := s.live.map (·.toHeapBlock)

structure Inv (base start : ℕ) (s : UserHeap) (F : List HeapBlock) : Prop where
  ok : HeapOk base s.toUserMem F s.used
  freep : s.freep ∈ nodes base F
  total : units F + units s.used = s.obtained
  nbytes : ∀ b ∈ s.live, b.nbytes + 8 ≤ 8 * b.size
  above : ∀ f ∈ F, start ≤ f.addr
  used_above : ∀ b ∈ s.used, start ≤ b.addr

/-- Nothing was asked for yet, or the list exists; the break was at `start` once. -/
structure Sound (base start : ℕ) (s : UserHeap) : Prop where
  base_pos : 0 < base
  base_below : base + 8 ≤ s.brk
  start_below : start ≤ s.brk
  heap : (s.freep = 0 ∧ s.live = [] ∧ s.obtained = 0 ∧ s.brk < kernbase) ∨ ∃ F, s.Inv base start F

theorem Initial.sound (h : s.Initial base) (hstart : start ≤ s.brk) : s.Sound base start where
  base_pos := h.base_pos
  base_below := h.base_below
  start_below := hstart
  heap := Or.inl ⟨h.freep, h.live, h.obtained, h.brk⟩

theorem nunits_eq {nbytes : ℕ} (h : 8 * wanted nbytes < 2 ^ 31) :
    UserMem.nunits nbytes = wanted nbytes := by
  simp only [UserMem.nunits, wanted] at *
  omega

theorem wanted_enough (nbytes : ℕ) : nbytes + 8 ≤ 8 * wanted nbytes := by
  simp only [wanted]
  omega

section

variable (h : s.Sound base start)

include h

theorem Sound.begin :
    ∃ m F, (if s.freep = 0 then
        { (s.toUserMem.setPtr base base).setSize base 0 with freep := base }
        else s.toUserMem) = m ∧
      HeapOk base m F s.used ∧ m.freep ∈ nodes base F ∧ m.brk = s.brk ∧
      units F + units s.used = s.obtained ∧ (∀ b ∈ s.live, b.nbytes + 8 ≤ 8 * b.size) ∧
      (∀ f ∈ F, start ≤ f.addr) ∧ ∀ b ∈ s.used, start ≤ b.addr := by
  rcases h.heap with ⟨hfreep, hlive, hobtained, hbrk⟩ | ⟨F, hinv⟩
  · have hused : s.used = [] := by rw [used, hlive, map_nil]
    refine ⟨_, [], if_pos hfreep, ?_, mem_cons_self, rfl, ?_, ?_, by simp, by simp [hused]⟩
    · rw [hused]
      exact HeapOk.first hbrk
    · rw [hused, hobtained]
      rfl
    · simp [hlive]
  · have hne := hinv.ok.node_ne_zero h.base_pos hinv.freep
    exact ⟨_, F, if_neg hne, hinv.ok, hinv.freep, rfl, hinv.total, hinv.nbytes, hinv.above,
      hinv.used_above⟩

/-- `malloc` returns, with any answers to its `sbrk`, and what it returns is 0 or a block in use
that is large enough. -/
theorem Sound.malloc (nbytes : ℕ) (grow : ℕ → Bool)
    (hsize : 8 * wanted nbytes < 2 ^ 31) :
    ∃ t ap, s.toUserMem.malloc base grow nbytes = .ok (t.toUserMem, ap) ∧
      s.perform base (.malloc nbytes grow) = .ok t ∧ t.Sound base start ∧ t.freep ≠ 0 ∧
        s.brk ≤ t.brk ∧
      (ap ≠ 0 → ∃ b ∈ t.live, b.addr + 8 = ap ∧ b.nbytes = nbytes) := by
  obtain ⟨m, F, hm, hok, hfreep, hbrk, htotal, hlive, habove, hused⟩ := h.begin
  have hbelow := h.base_below
  have hstart := h.start_below
  rw [← hbrk] at hbelow hstart
  have hn : 0 < UserMem.nunits nbytes := Nat.succ_pos _
  have henough := wanted_enough nbytes
  have hsmall := hsize
  rw [← nunits_eq hsize] at henough hsmall
  obtain ⟨m', F', nu, hfreep', hbrk', habove', hresult⟩ :=
    hok.mallocLoop_ok grow hfreep h.base_pos hbelow hn hsmall hstart habove
  have hgrown : (m'.brk - s.brk) / 8 = nu := by omega
  have hbelow' : base + 8 ≤ m'.brk ∧ start ≤ m'.brk := by omega
  have hperform : ∀ ap, UserMem.mallocLoop grow (UserMem.nunits nbytes) heapFuel m m.freep
      (m.next m.freep) = .ok (m', ap) → s.perform base (.malloc nbytes grow) = .ok
        ⟨m', if ap = 0 then s.live else ⟨⟨ap - 8, UserMem.nunits nbytes⟩, nbytes⟩ :: s.live,
          s.obtained + nu⟩ := by
    intro ap hloop
    refine bind_eq_ok.mpr ⟨(), await_eq_ok.mpr hsize, bind_eq_ok.mpr ⟨(m', ap), ?_, ?_⟩⟩
    · simp only [UserMem.malloc, hm, hloop]
    · simp only [hgrown]
      rfl
  simp only [UserMem.malloc, hm]
  rcases hresult with ⟨hloop, hok', hunits⟩ | ⟨b, hloop, hb, hbabove, hok', hunits⟩
  · refine ⟨_, 0, hloop, hperform 0 hloop, ?_,
      hok'.node_ne_zero h.base_pos hfreep', by simp only; omega, by simp⟩
    rw [if_pos rfl]
    refine ⟨h.base_pos, hbelow'.1, hbelow'.2, Or.inr ⟨F', hok', hfreep', ?_, hlive, habove', hused⟩⟩
    simp only [used] at *
    omega
  · refine ⟨_, b.addr + 8, hloop, hperform _ hloop, ?_,
      hok'.node_ne_zero h.base_pos hfreep', by simp only; omega, ?_⟩
    · have hblock : (⟨b.addr + 8 - 8, UserMem.nunits nbytes⟩ : HeapBlock) = b := by
        simp [← hb]
      rw [if_neg (by omega), hblock]
      refine ⟨h.base_pos, hbelow'.1, hbelow'.2, Or.inr ⟨F', hok', hfreep', ?_, ?_, habove', ?_⟩⟩
      · simp only [used, map_cons, units_cons] at *
        omega
      · rw [forall_mem_cons]
        refine ⟨?_, hlive⟩
        rw [hb]
        exact henough
      · exact forall_mem_cons.mpr ⟨hbabove, hused⟩
    · intro _
      rw [if_neg (by omega)]
      exact ⟨_, mem_cons_self, rfl, rfl⟩

theorem Sound.free {b : LiveBlock} (hb : b ∈ s.live) :
    ∃ t, s.perform base (.free (b.addr + 8)) = .ok t ∧ t.Sound base start := by
  rcases h.heap with ⟨-, hlive, -⟩ | ⟨F, hinv⟩
  · rw [hlive] at hb
    exact absurd hb not_mem_nil
  · obtain ⟨c, hfind⟩ : ∃ c, s.live.find? (fun c => c.addr + 8 = b.addr + 8) = some c := by
      rw [← Option.isSome_iff_exists, find?_isSome]
      exact ⟨b, hb, by simp⟩
    have hc : c ∈ s.live := mem_of_find?_eq_some hfind
    have hcb : c.addr + 8 = b.addr + 8 := by simpa using find?_some hfind
    have hperm : s.used.Perm (c.toHeapBlock :: (s.live.erase c).map (·.toHeapBlock)) :=
      (perm_cons_erase hc).map _
    have hbelow := h.base_below
    obtain ⟨m', F', hfree, hok, hfreep, hbrk, hunits, -, haddr⟩ :=
      (hinv.ok.perm hperm).free_ok hinv.freep (show base < s.brk by omega)
    refine ⟨{ s with toUserMem := m', live := s.live.erase c }, ?_, ?_⟩
    · refine bind_eq_ok.mpr ⟨c, awaitSome_eq_ok.mpr hfind, bind_eq_ok.mpr ⟨m', ?_, rfl⟩⟩
      rw [← hcb]
      exact hfree
    · refine ⟨h.base_pos, hbrk ▸ hbelow, hbrk ▸ h.start_below,
        Or.inr ⟨F', hok, hfreep, ?_, ?_, ?_, ?_⟩⟩
      · have htotal := hinv.total
        rw [units_perm hperm, units_cons] at htotal
        show units F' + units ((s.live.erase c).map (·.toHeapBlock)) = s.obtained
        omega
      · exact fun x hx => hinv.nbytes x (mem_of_mem_erase hx)
      · intro f hf
        rcases haddr f hf with heq | ⟨g, hg, hgf⟩
        · exact heq ▸ hinv.used_above _ (mem_map_of_mem hc)
        · exact hgf ▸ hinv.above g hg
      · exact fun x hx => hinv.used_above x (hperm.mem_iff.mpr (mem_cons_of_mem _ hx))

theorem Sound.write {b : LiveBlock} {bytes : ℕ → Header} {t : UserHeap}
    (hstep : s.perform base (.write b bytes) = .ok t) : t.Sound base start := by
  simp only [perform, bind_eq_ok, await_eq_ok, pure_eq_ok] at hstep
  obtain ⟨-, hb, rfl⟩ := hstep
  rcases h.heap with ⟨-, hlive, -⟩ | ⟨F, hinv⟩
  · rw [hlive] at hb
    exact absurd hb not_mem_nil
  · have hused : b.toHeapBlock ∈ s.used := mem_map_of_mem hb
    have hkept : ∀ a, a ≤ b.addr ∨ b.stop ≤ a →
        (if a + 8 ≤ b.addr + 8 ∨ b.stop ≤ a then s.header a else bytes a) = s.header a := by
      intro a ha
      exact if_pos (ha.imp_left fun hle => Nat.add_le_add_right hle 8)
    have hapart : ∀ x, HeapBlock.Apart x b.toHeapBlock → x.addr ≤ b.addr ∨ b.stop ≤ x.addr := by
      intro x hx
      exact hx.imp_left fun hle => (Nat.le_add_right x.addr (8 * x.size)).trans hle
    have hnode : ∀ z ∈ nodes base F, z ≤ b.addr ∨ b.stop ≤ z := by
      intro z hz
      rcases mem_cons.mp hz with rfl | hz
      · have hlow := (hinv.ok.used _ hused).low
        exact Or.inl (by omega)
      · obtain ⟨f, hf, rfl⟩ := mem_map.mp hz
        exact hapart f (hinv.ok.disjoint f hf _ hused)
    have hlive : ∀ x ∈ s.used, x.addr ≤ b.addr ∨ b.stop ≤ x.addr := by
      intro x hx
      by_cases hxb : x = b.toHeapBlock
      · exact Or.inl (hxb ▸ le_refl _)
      · have hsymm : Std.Symm HeapBlock.Apart := ⟨fun _ _ hab => Or.symm hab⟩
        exact hapart x (hinv.ok.apart.forall hx hused hxb)
    refine ⟨h.base_pos, h.base_below, h.start_below,
      Or.inr ⟨F, ?_, hinv.freep, hinv.total, hinv.nbytes, hinv.above, hinv.used_above⟩⟩
    refine hinv.ok.frame ?_ ?_ ?_ rfl
    · exact fun z hz => congrArg Header.ptr (hkept z (hnode z hz))
    · exact fun z hz => congrArg Header.size (hkept z (hnode z hz))
    · exact fun x hx => congrArg Header.size (hkept x.addr (hlive x hx))

theorem Sound.sbrk {n : ℕ} {t : UserHeap}
    (hstep : s.perform base (.sbrk n) = .ok t) : t.Sound base start := by
  simp only [perform, bind_eq_ok, await_eq_ok, pure_eq_ok] at hstep
  obtain ⟨-, hn, rfl⟩ := hstep
  refine ⟨h.base_pos, h.base_below.trans (Nat.le_add_right ..),
    h.start_below.trans (Nat.le_add_right ..), ?_⟩
  rcases h.heap with ⟨hfreep, hlive, hobtained, -⟩ | ⟨F, hinv⟩
  · exact Or.inl ⟨hfreep, hlive, hobtained, hn⟩
  · exact Or.inr ⟨F, hinv.ok.raise (Nat.le_add_right ..) hn, hinv.freep, hinv.total, hinv.nbytes,
      hinv.above, hinv.used_above⟩

theorem Sound.step {label : HeapLabel} {t : UserHeap}
    (hstep : step base s label = some t) : t.Sound base start := by
  rw [UserHeap.step, stepOf_eq_some] at hstep
  cases label with
  | malloc nbytes grow =>
    have hsize : 8 * wanted nbytes < 2 ^ 31 := by
      simp only [perform, bind_eq_ok, await_eq_ok] at hstep
      obtain ⟨-, hsize, -⟩ := hstep
      exact hsize
    obtain ⟨t', -, -, ht', hsound, -⟩ := h.malloc nbytes grow hsize
    rw [ht'] at hstep
    exact Except.ok.inj hstep ▸ hsound
  | free ap =>
    obtain ⟨b, hb, rfl⟩ : ∃ b ∈ s.live, b.addr + 8 = ap := by
      simp only [perform, bind_eq_ok, awaitSome_eq_ok] at hstep
      obtain ⟨b, hfind, -⟩ := hstep
      exact ⟨b, mem_of_find?_eq_some hfind, by simpa using find?_some hfind⟩
    obtain ⟨t', ht', hsound⟩ := h.free hb
    rw [ht'] at hstep
    exact Except.ok.inj hstep ▸ hsound
  | write b bytes => exact h.write hstep
  | sbrk n => exact h.sbrk hstep

end

end UserHeap

/-- In every run both functions return, the free list is a circle in the order of the
addresses with one wrap, blocks do not overlap, free blocks do not touch, blocks in use are
as large as was asked for, and all units from `sbrk` are free or in use. -/
theorem user_heap_invariant {base : ℕ} {s : UserHeap}
    (hreach : Reachable (UserHeap.step base) (UserHeap.Initial base) s) :
    (∀ nbytes grow, 8 * UserHeap.wanted nbytes < 2 ^ 31 →
      ∃ t, s.perform base (.malloc nbytes grow) = .ok t) ∧
    (∀ b ∈ s.live, ∃ t, s.perform base (.free (b.addr + 8)) = .ok t) ∧
    ∃ F : List HeapBlock,
      (s.freep = 0 → F = [] ∧ s.live = []) ∧
      (s.freep ≠ 0 → s.freep ∈ nodes base F ∧ Cycle s.next (nodes base F) ∧
        (nodes base F).Pairwise (· < ·) ∧ ∃! z, z ∈ nodes base F ∧ s.next z ≤ z) ∧
      (∀ b ∈ F ++ s.used, BlockPlaced base s.toUserMem b) ∧
      (F ++ s.used).Pairwise HeapBlock.Apart ∧
      (∀ a ∈ F, ∀ b ∈ F, a.stop ≠ b.addr) ∧
      (∀ b ∈ s.live, b.nbytes + 8 ≤ 8 * b.size) ∧
      units s.used + units F = s.obtained := by
  have hsound : s.Sound base 0 :=
    hreach.invariant (fun _ hinit => hinit.sound (Nat.zero_le _))
      fun _ _ _ hs hstep => hs.step hstep
  refine ⟨?_, ?_, ?_⟩
  · intro nbytes grow hsize
    obtain ⟨t, -, -, ht, -⟩ := hsound.malloc nbytes grow hsize
    exact ⟨t, ht⟩
  · intro b hb
    obtain ⟨t, ht, -⟩ := hsound.free hb
    exact ⟨t, ht⟩
  · rcases hsound.heap with ⟨hfreep, hlive, hobtained, -⟩ | ⟨F, hinv⟩
    · refine ⟨[], fun _ => ⟨rfl, hlive⟩, fun hne => absurd hfreep hne, ?_⟩
      simp [UserHeap.used, hlive, hobtained]
    · have hne := hinv.ok.node_ne_zero hsound.base_pos hinv.freep
      refine ⟨F, fun heq => absurd heq hne, fun _ => ?_, ?_, hinv.ok.pairwise_apart, ?_,
        hinv.nbytes, ?_⟩
      · exact ⟨hinv.freep, hinv.ok.cycle, hinv.ok.sorted, hinv.ok.one_wrap⟩
      · exact List.forall_mem_append.mpr ⟨hinv.ok.free, hinv.ok.used⟩
      · exact fun a ha b hb => hinv.ok.not_adjacent ha hb
      · rw [Nat.add_comm]
        exact hinv.total

def heapAtStart : UserHeap where
  header := fun _ => ⟨0, 0⟩
  freep := 0
  brk := 12288
  live := []
  obtained := 0

/-- Two blocks are taken, and the first is given back. -/
theorem user_heap_invariant_twoBlocks :
    ∃ s, Reachable (UserHeap.step 4096) (UserHeap.Initial 4096) s ∧ s.live.length = 1 ∧
      s.obtained = 4096 ∧
      ∃ F : List HeapBlock, units s.used + units F = s.obtained := by
  obtain ⟨s, hexec, htest⟩ : ∃ s, exec (UserHeap.step 4096) heapAtStart
      [.malloc 20 fun _ => true, .malloc 100 fun _ => true, .free 45032] = some s ∧
      (decide (s.live.length = 1) && decide (s.obtained = 4096)) = true :=
    exec_of_any (by decide +kernel)
  have hreach : Reachable (UserHeap.step 4096) (UserHeap.Initial 4096) s :=
    ⟨heapAtStart, _, ⟨rfl, by decide, by decide, by decide, rfl, rfl⟩, hexec⟩
  obtain ⟨-, -, F, -, -, -, -, -, -, htotal⟩ := user_heap_invariant hreach
  rw [Bool.and_eq_true, decide_eq_true_eq, decide_eq_true_eq] at htest
  exact ⟨s, hreach, htest.1, htest.2, F, htotal⟩

end Xv6Kernel
