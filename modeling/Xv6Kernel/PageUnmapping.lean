import Xv6Kernel.AddressSpaces

/-!
# The loop of `deallocuvm`

The loop as the code has it, over addresses of 32 bits.  Where there is no page table it
goes on to the last page before the next directory entry.  It does what a visit of every
page in the range does, for every contents of the memory.
-/

namespace Xv6Kernel.Vm

open TraceExecution StateHoare

def pdx (va : ℕ) : ℕ := va / 2 ^ 22 % 1024

def pgaddr (d t o : ℕ) : ℕ := (d * 2 ^ 22 + t * 2 ^ 12 + o) % 2 ^ 32

def unmap (k : KernelImage) (t j : ℕ) : Mem Unit := do
  let w := (← get).word t j
  if pteP w then do
    if pteAddr w = 0 then throw (.panic "kfree")
    else do
      kfree k (pteAddr w)
      modify (·.setWord t j 0)
  else return ()

def deallocAddrs (k : KernelImage) (d oldsz : ℕ) : ℕ → ℕ → Mem Unit
  | 0, _ => throw .blocked
  | fuel + 1, a =>
      if a < oldsz then do
        let pte ← walkpgdir d (a / 4096) false
        match pte with
        | none =>
            let a := (pgaddr (pdx a + 1) 0 0 + 2 ^ 32 - 4096) % 2 ^ 32
            deallocAddrs k d oldsz fuel ((a + 4096) % 2 ^ 32)
        | some (t, j) => do
            unmap k t j
            deallocAddrs k d oldsz fuel ((a + 4096) % 2 ^ 32)
      else return ()

/-- The whole function; `a` begins at `PGROUNDUP(newsz)`. -/
def deallocuvmAddrs (k : KernelImage) (d fuel oldsz newsz : ℕ) : Mem ℕ :=
  if newsz ≥ oldsz then return oldsz
  else do
    deallocAddrs k d oldsz fuel ((newsz + 4095) % 2 ^ 32 / 4096 * 4096)
    return newsz

def visitPages (k : KernelImage) (d : ℕ) : ℕ → ℕ → Mem Unit
  | 0, _ => return ()
  | n + 1, v => do
      let pte ← walkpgdir d v false
      match pte with
      | none => visitPages k d n (v + 1)
      | some (t, j) => do
          unmap k t j
          visitPages k d n (v + 1)

section Steps

variable {k : KernelImage} {d v n : ℕ} {m : PhysMem}

theorem walkpgdir_run {α : Type} (f : Option (ℕ × ℕ) → Mem α) :
    (walkpgdir d v false >>= f) m = f (walk m d v) m := by
  simp only [walkpgdir, walk, bind_assoc, get_bind_run]
  by_cases hpde : pteP (m.word d (v / 1024)) = true
  · simp [hpde]
  · simp [hpde]

theorem deallocLoop_step (last a : ℕ) :
    deallocLoop k d last a =
      if a < last then do
        let pte ← walkpgdir d a false
        match pte with
        | none => deallocLoop k d last ((a / 1024 + 1) * 1024)
        | some (t, j) => do
            unmap k t j
            deallocLoop k d last (a + 1)
      else return () := by
  rw [deallocLoop]
  by_cases ha : a < last
  · rw [if_pos ha, if_pos ha]
    refine congrArg (walkpgdir d a false >>= ·) (funext fun pte => ?_)
    cases pte with
    | none => rfl
    | some place =>
      simp only [unmap, bind_assoc]
      refine congrArg (get >>= ·) (funext fun m => ?_)
      by_cases hpte : pteP (m.word place.1 place.2) = true
      · rw [if_pos hpte, if_pos hpte]
        by_cases hzero : pteAddr (m.word place.1 place.2) = 0
        · rw [if_pos hzero, if_pos hzero]
          rfl
        · rw [if_neg hzero, if_neg hzero, bind_assoc]
      · rw [if_neg hpte, if_neg hpte, pure_bind]
  · rw [if_neg ha, if_neg ha]

theorem visitPages_skip (hpde : pteP (m.word d (v / 1024)) = false) :
    visitPages k d n v m =
      visitPages k d (n - ((v / 1024 + 1) * 1024 - v)) ((v / 1024 + 1) * 1024) m := by
  induction n generalizing v with
  | zero => rw [Nat.zero_sub]; rfl
  | succ n ih =>
    have hwalk : walk m d v = none := by simp [walk, hpde]
    rw [visitPages, walkpgdir_run, hwalk]
    show visitPages k d n (v + 1) m = _
    by_cases hsame : (v + 1) / 1024 = v / 1024
    · rw [ih (by rwa [hsame]), hsame]
      congr 1
      omega
    · have hnext : (v / 1024 + 1) * 1024 = v + 1 := by omega
      rw [hnext]
      congr 1
      omega

theorem deallocLoop_eq_visitPages (last a : ℕ) :
    deallocLoop k d last a = visitPages k d (last - a) a := by
  funext m
  induction hn : last - a using Nat.strong_induction_on generalizing a m with
  | _ n ih =>
    rw [deallocLoop_step]
    by_cases ha : a < last
    · obtain ⟨n, rfl⟩ := Nat.exists_eq_succ_of_ne_zero (show n ≠ 0 by omega)
      rw [if_pos ha, walkpgdir_run]
      cases hwalk : walk m d a with
      | none =>
        have hpde : pteP (m.word d (a / 1024)) = false := by
          by_contra hpresent
          rw [Bool.not_eq_false] at hpresent
          simp [walk, hpresent] at hwalk
        rw [visitPages_skip hpde]
        refine (ih _ ?_ _ _ rfl).trans ?_
        · omega
        · congr 1
          omega
      | some place =>
        rw [visitPages, walkpgdir_run, hwalk]
        show EStateM.bind _ _ _ = EStateM.bind _ _ _
        unfold EStateM.bind
        cases unmap k place.1 place.2 m with
        | error e m' => rfl
        | ok _ m' => exact ih n (by omega) _ _ (by omega)
    · obtain rfl : n = 0 := by omega
      rw [if_neg ha]
      rfl

theorem deallocAddrs_eq_deallocLoop {oldsz fuel : ℕ} (hold : oldsz ≤ kernbase)
    (hfuel : pgroundup oldsz - v < fuel) (hv : v ≤ kernpage) :
    deallocAddrs k d oldsz fuel (v * 4096) = deallocLoop k d (pgroundup oldsz) v := by
  have hbase : kernbase = 2147483648 := rfl
  have hpage : kernpage = 524288 := rfl
  induction fuel generalizing v with
  | zero => omega
  | succ fuel ih =>
    rw [deallocAddrs, deallocLoop_step]
    have hlt : v * 4096 < oldsz ↔ v < pgroundup oldsz := by
      rw [pgroundup]
      omega
    by_cases ha : v < pgroundup oldsz
    · rw [if_pos (hlt.mpr ha), if_pos ha, Nat.mul_div_cancel v (by decide)]
      have hsmall : v < kernpage := by
        rw [pgroundup] at ha
        omega
      refine congrArg (walkpgdir d v false >>= ·) (funext fun pte => ?_)
      have hnext : (v * 4096 + 4096) % 2 ^ 32 = (v + 1) * 4096 := by omega
      cases pte with
      | none =>
        have hskip : ((pgaddr (pdx (v * 4096) + 1) 0 0 + 2 ^ 32 - 4096) % 2 ^ 32 + 4096) % 2 ^ 32 =
            (v / 1024 + 1) * 1024 * 4096 := by
          simp only [pgaddr, pdx]
          omega
        show deallocAddrs k d oldsz fuel _ = _
        rw [hskip]
        exact ih (by omega) (by omega)
      | some place =>
        show (unmap k place.1 place.2 >>= fun _ => _) = unmap k place.1 place.2 >>= fun _ => _
        rw [hnext, ih (by omega) (by omega)]
    · rw [if_neg (hlt.not.mpr ha), if_neg ha]

end Steps

/-- The loop ends, and does what a visit of every page in the range does, whatever is in memory.
In an address space every page in the range is freed once and its entry is cleared, and nothing
else changes. -/
theorem deallocuvm_exact {k : KernelImage} {d oldsz newsz fuel : ℕ} (hold : oldsz ≤ kernbase)
    (hnew : newsz ≤ kernbase) (hfuel : kernpage < fuel) :
    (deallocuvmAddrs k d fuel oldsz newsz =
      if newsz ≥ oldsz then return oldsz
      else do
        visitPages k d (pgroundup oldsz - pgroundup newsz) (pgroundup newsz)
        return newsz) ∧
    ∀ m o l h, Owned k m o l → o d = .dir h →
      ∃ m' o' l', deallocuvmAddrs k d fuel oldsz newsz m = .ok (min oldsz newsz) m' ∧
        Shrunk k d (fun v => pgroundup newsz ≤ v ∧ v < pgroundup oldsz) m o m' o' l' := by
  have hbase : kernbase = 2147483648 := rfl
  have hpage : kernpage = 524288 := rfl
  have hround : (newsz + 4095) % 2 ^ 32 / 4096 = pgroundup newsz := by
    rw [pgroundup]
    omega
  have hloop : deallocAddrs k d oldsz fuel ((newsz + 4095) % 2 ^ 32 / 4096 * 4096) =
      deallocLoop k d (pgroundup oldsz) (pgroundup newsz) := by
    rw [hround]
    refine deallocAddrs_eq_deallocLoop hold ?_ ?_
    · simp only [pgroundup]
      omega
    · simp only [pgroundup]
      omega
  have hpages : deallocuvmAddrs k d fuel oldsz newsz = deallocuvm k d oldsz newsz := by
    rw [deallocuvmAddrs, hloop, deallocuvm]
  constructor
  · rw [hpages, deallocuvm, deallocLoop_eq_visitPages]
  · intro m o l h ho hd
    obtain ⟨r, m', hrun, rfl, o', l', hshrunk⟩ := (deallocuvm_spec oldsz newsz ho hd hold).total
    exact ⟨m', o', l', hpages ▸ hrun, hshrunk⟩

/-- One page, from the middle of the first table on. -/
theorem deallocuvm_exact_onePage :
    deallocuvmAddrs ⟨512, 600, by decide, by decide, by decide⟩ 700 (kernpage + 1) 8000 100 = do
      visitPages ⟨512, 600, by decide, by decide, by decide⟩ 700 1 1
      return 100 :=
  (deallocuvm_exact (show 8000 ≤ kernbase by decide) (show 100 ≤ kernbase by decide)
    (Nat.lt_succ_self kernpage)).1

end Xv6Kernel.Vm
