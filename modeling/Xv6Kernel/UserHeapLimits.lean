import Xv6Kernel.UserHeapRuns

/-!
# Requests near the limits

The sums in `malloc` and the argument of `sbrk` are words of 32 bits, and the argument is taken
as an `int`.  A request of more than `2^31 - 16` bytes makes one of them wrap.
-/

namespace Xv6Kernel

open TraceExecution LinkedCycle UserMem

namespace UserHeap

/-- `malloc` returns; the break does not move down; every block that is recorded lies in the memory
from `sbrk`, which begins at `start`; and a block that is returned has `nbytes` bytes. -/
def Enough (base start nbytes : ℕ) (s : UserHeap) (grow : ℕ → Bool) : Prop :=
  ∃ m ap, s.toUserMem.malloc base grow nbytes = .ok (m, ap) ∧ s.brk ≤ m.brk ∧
    (∃ F L, HeapOk base m F L ∧ ∀ b ∈ F ++ L, start ≤ b.addr) ∧
    (ap ≠ 0 → start + 8 ≤ ap ∧ ap + nbytes ≤ m.brk ∧ nbytes + 8 ≤ 8 * m.size (ap - 8))

theorem Sound.enough {base start nbytes : ℕ} {s : UserHeap} (h : s.Sound base start)
    (hsize : 8 * wanted nbytes < 2 ^ 31) (grow : ℕ → Bool) : Enough base start nbytes s grow := by
  obtain ⟨t, ap, hmalloc, -, hsound, hfreep, hbrk, hblock⟩ := h.malloc nbytes grow hsize
  rcases hsound.heap with ⟨hzero, -⟩ | ⟨F, hinv⟩
  · exact absurd hzero hfreep
  · refine ⟨_, ap, hmalloc, hbrk, ⟨F, t.used, hinv.ok, ?_⟩, ?_⟩
    · exact List.forall_mem_append.mpr ⟨hinv.above, hinv.used_above⟩
    · intro hap
      obtain ⟨b, hb, rfl, rfl⟩ := hblock hap
      have hused : b.toHeapBlock ∈ t.used := List.mem_map_of_mem hb
      have hplaced := hinv.ok.used _ hused
      have hhigh := hplaced.high
      have hlow := hinv.used_above _ hused
      have hbytes := hinv.nbytes b hb
      rw [HeapBlock.stop] at hhigh
      rw [Nat.add_sub_cancel, hplaced.size]
      exact ⟨by omega, by omega, hbytes⟩

theorem free_first (m : UserMem) {base fuel : ℕ} (bp : ℕ) (hfuel : heapFuel = fuel + 1)
    (hfreep : m.freep = base) (hnext : m.next base = base) (hsize : m.size base = 0)
    (hlt : base < bp) :
    ∃ m', m.free (bp + 8) = .ok m' ∧ m'.freep = base ∧ m'.next base = bp ∧ m'.size = m.size ∧
      m'.brk = m.brk := by
  have hbetween : m.between bp base = true := by
    simp [between, hnext, hlt]
  have hupper : m.joinUpper bp base = m.setPtr bp base := by
    rw [joinUpper, hnext, if_neg (by omega)]
  have hjoined : (m.joinUpper bp base).joinLower bp base = (m.setPtr bp base).setPtr base bp := by
    rw [hupper, joinLower, size_setPtr, hsize, if_neg (by omega)]
  refine ⟨{ (m.setPtr bp base).setPtr base bp with freep := base }, ?_, rfl, ?_, ?_, rfl⟩
  · rw [free, hfuel, Nat.add_sub_cancel, LinkedCycle.walk, hfreep, if_pos hbetween, ← hjoined]
    rfl
  · exact (congrFun (next_setPtr ..) base).trans (Function.update_self ..)
  · exact (size_setPtr ..).trans (size_setPtr ..)

def oddStart : UserHeap := { heapAtStart with brk := 12300 }

theorem malloc_oddStart {nbytes nu brk : ℕ}
    (hnu : (if nunits nbytes < 4096 then 4096 else nunits nbytes) = nu)
    (hgrow : growproc (fun _ => true) 12300 (nu * 8 % 2 ^ 32) = brk) (hbrk : brk ≠ 0) :
    ∃ m ap, oddStart.toUserMem.malloc 4096 (fun _ => true) nbytes = .ok (m, ap) ∧ ap ≠ 0 ∧
      m.brk = brk := by
  obtain ⟨fuel, hfuel⟩ : ∃ fuel, heapFuel = fuel + 1 + 1 := ⟨2 ^ 33 - 2, by norm_num⟩
  have hpos : 0 < nunits nbytes := Nat.succ_pos _
  have hle : nunits nbytes ≤ nu := by
    rw [← hnu]
    split <;> omega
  have hfirst : oddStart.toUserMem.freep = 0 := rfl
  rw [malloc, if_pos hfirst, hfuel]
  generalize hm : ({ (oddStart.toUserMem.setPtr 4096 4096).setSize 4096 0 with
    freep := 4096 } : UserMem) = m
  have hnext : m.next 4096 = 4096 := by rw [← hm]; rfl
  have hsize : m.size 4096 = 0 := by rw [← hm]; rfl
  have hfreep : m.freep = 4096 := by rw [← hm]
  have hmbrk : m.brk = 12300 := by rw [← hm]; rfl
  obtain ⟨m', hfree, hfreep', hnext', hsize', hbrk'⟩ :=
    free_first ({ m with brk := brk }.setSize 12300 nu) 12300 hfuel hfreep hnext hsize (by decide)
  have hmore : morecore (fun _ => true) m (nunits nbytes) = .ok (m', 4096) := by
    simp only [morecore, hnu, hmbrk, hgrow, if_pos hbrk, hfree, bind_eq_ok]
    exact ⟨m', rfl, by rw [hfreep']; rfl⟩
  have hround : mallocLoop (fun _ => true) (nunits nbytes) (fuel + 1 + 1) m m.freep
      (m.next m.freep) = .ok (m'.carve (nunits nbytes) 4096 12300) := by
    rw [mallocLoop, hfreep, hnext, hsize, if_neg (by omega), if_pos rfl, hmore]
    show mallocLoop _ _ (fuel + 1) m' 4096 (m'.next 4096) = _
    have hnew : m'.size 12300 = nu := by
      rw [hsize']
      rfl
    rw [mallocLoop, hnext', hnew, if_pos hle]
    rfl
  have hcarve : (m'.carve (nunits nbytes) 4096 12300).2 ≠ 0 ∧
      (m'.carve (nunits nbytes) 4096 12300).1.brk = m'.brk := by
    rw [carve]
    split
    · exact ⟨by simp, rfl⟩
    · exact ⟨by simp, rfl⟩
  exact ⟨_, _, hround, hcarve.1, hcarve.2.trans hbrk'⟩

end UserHeap

theorem wanted_small_iff {nbytes : ℕ} :
    8 * UserHeap.wanted nbytes < 2 ^ 31 ↔ nbytes ≤ 2 ^ 31 - 16 := by
  rw [UserHeap.wanted]
  omega

theorem growproc_of_large {nbytes : ℕ} (hword : nbytes < 2 ^ 32) (hlarge : 2 ^ 31 - 16 < nbytes) :
    ∃ brk, growproc (fun _ => true) 12300
      ((if nunits nbytes < 4096 then 4096 else nunits nbytes) * 8 % 2 ^ 32) = brk ∧
      brk ≠ 0 ∧ brk ≤ 45068 := by
  have hunits : nunits nbytes = 1 ∨
      2 ^ 28 ≤ nunits nbytes ∧ nunits nbytes ≤ 2 ^ 29 := by
    rw [nunits]
    omega
  refine ⟨_, rfl, ?_⟩
  rcases hunits with hone | hmany
  · rw [hone]
    decide
  · rw [if_neg (by omega)]
    simp only [growproc, kernbase]
    generalize nunits nbytes = nu at hmany
    split_ifs <;> omega

/-- `malloc` does what it should do on every heap that a program has come to with such requests
exactly if the request is at most `2^31 - 16` bytes. -/
theorem malloc_enough_iff {nbytes : ℕ} (hword : nbytes < 2 ^ 32) :
    (∀ base start s grow, Reachable (UserHeap.step base)
        (fun s₀ => s₀.Initial base ∧ s₀.brk = start) s →
      UserHeap.Enough base start nbytes s grow) ↔ nbytes ≤ 2 ^ 31 - 16 := by
  constructor
  · intro hall
    by_contra hlarge
    obtain ⟨m, ap, hmalloc, -, -, hblock⟩ := hall 4096 12300 UserHeap.oddStart (fun _ => true)
      ⟨_, [], ⟨⟨rfl, by decide, by decide, by decide, rfl, rfl⟩, rfl⟩, rfl⟩
    obtain ⟨brk, hgrow, hpos, hle⟩ := growproc_of_large hword (Nat.not_le.mp hlarge)
    obtain ⟨m', ap', hmalloc', hap, hbrk⟩ := UserHeap.malloc_oddStart rfl hgrow hpos
    rw [hmalloc'] at hmalloc
    obtain ⟨rfl, rfl⟩ := Prod.mk.inj (Except.ok.inj hmalloc)
    have hinside := (hblock hap).2.1
    omega
  · intro hsmall base start s grow hreach
    have hsound : s.Sound base start := by
      refine hreach.invariant (fun s₀ hinit => hinit.1.sound hinit.2.ge) ?_
      exact fun _ _ _ hs hstep => hs.step hstep
    exact hsound.enough (wanted_small_iff.mpr hsmall) grow

theorem malloc_enough_twenty : UserHeap.Enough 4096 12288 20 heapAtStart fun _ => true :=
  (malloc_enough_iff (show 20 < 2 ^ 32 by decide)).mpr (by decide) 4096 12288 _ _
    ⟨_, [], ⟨⟨rfl, by decide, by decide, by decide, rfl, rfl⟩, rfl⟩, rfl⟩

/-- For `2^31 - 8` bytes the break stays where it is, and a block of `2^28` units is recorded there
and returned. -/
theorem malloc_records_without_growing :
    ∃ m, UserHeap.oddStart.toUserMem.malloc 4096 (fun _ => true) (2 ^ 31 - 8) = .ok (m, 12308) ∧
      m.brk = 12300 ∧ m.size 12300 = 2 ^ 28 := by
  have htest : (match UserHeap.oddStart.toUserMem.malloc 4096 (fun _ => true) (2 ^ 31 - 8) with
      | .ok (m, ap) => decide (ap = 12308 ∧ m.brk = 12300 ∧ m.size 12300 = 2 ^ 28)
      | .error _ => false) = true := by
    decide +kernel
  split at htest
  · rename_i m ap hok
    obtain ⟨rfl, hbrk, hsize⟩ := of_decide_eq_true htest
    exact ⟨m, hok, hbrk, hsize⟩
  · cases htest

end Xv6Kernel
