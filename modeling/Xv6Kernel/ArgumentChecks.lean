import Mathlib.Data.UInt
import Mathlib.Tactic

/-!
# The arguments of system calls

`fetchint`, `fetchstr`, `argint`, `argptr` and `argstr` of `syscall.c`, in the arithmetic of
32-bit words.  The functions keep a record of the addresses from which they have read.
-/

namespace Xv6Kernel

/-- What the functions see of the process that has made the call. -/
structure UserView where
  sz : UInt32
  esp : UInt32
  mem : UInt32 → UInt8

abbrev Fetch := StateM (List UInt32)

namespace UserView

theorem toNat_succ {s e : UInt32} (h : s < e) : (s + 1).toNat = s.toNat + 1 := by
  rw [UInt32.lt_iff_toNat_lt] at h
  have hsmall := e.toNat_lt
  rw [UInt32.toNat_add, UInt32.toNat_one, Nat.mod_eq_of_lt (by omega)]

variable (p : UserView)

def load (a : UInt32) : Fetch UInt8 := do
  modify (a :: ·)
  return p.mem a

def word (a : UInt32) : UInt32 :=
  (p.mem a).toUInt32 + (p.mem (a + 1)).toUInt32 * 2 ^ 8 + (p.mem (a + 2)).toUInt32 * 2 ^ 16 +
    (p.mem (a + 3)).toUInt32 * 2 ^ 24

def loadWord (a : UInt32) : Fetch UInt32 := do
  let b0 ← p.load a
  let b1 ← p.load (a + 1)
  let b2 ← p.load (a + 2)
  let b3 ← p.load (a + 3)
  return b0.toUInt32 + b1.toUInt32 * 2 ^ 8 + b2.toUInt32 * 2 ^ 16 + b3.toUInt32 * 2 ^ 24

def fetchint (addr : UInt32) : Fetch (Option UInt32) :=
  if addr ≥ p.sz ∨ addr + 4 > p.sz then return none
  else return some (← p.loadWord addr)

def strLoop (pp s : UInt32) : Fetch (Option UInt32) :=
  if s < p.sz then do
    if (← p.load s) = 0 then return some (s - pp)
    else strLoop pp (s + 1)
  else return none
termination_by p.sz.toNat - s.toNat
decreasing_by
  have hs : s < p.sz := ‹_›
  rw [toNat_succ hs]
  rw [UInt32.lt_iff_toNat_lt] at hs
  omega

def fetchstr (addr : UInt32) : Fetch (Option (UInt32 × UInt32)) :=
  if addr ≥ p.sz then return none
  else return (← p.strLoop addr addr).map (addr, ·)

def argint (n : UInt32) : Fetch (Option UInt32) := p.fetchint (p.esp + 4 + 4 * n)

def argptr (n : UInt32) (size : Int32) : Fetch (Option UInt32) := do
  match ← p.argint n with
  | none => return none
  | some i =>
      if size < 0 ∨ i ≥ p.sz ∨ i + size.toUInt32 > p.sz then return none
      else return some i

def argstr (n : UInt32) : Fetch (Option (UInt32 × UInt32)) := do
  match ← p.argint n with
  | none => return none
  | some addr => p.fetchstr addr

/-! ## What the functions return and read -/

/-- The function returns `r` and reads below the size of the process only. -/
def Returns (x : Fetch α) (r : α) : Prop :=
  ∀ log, ∃ read, x.run log = (r, read ++ log) ∧ ∀ a ∈ read, a < p.sz

variable {p}

theorem returns_pure (r : α) : p.Returns (pure r) r := fun _ => ⟨[], rfl, by simp⟩

theorem Returns.bind {x : Fetch α} {f : α → Fetch β} {a : α} {b : β} (hx : p.Returns x a)
    (hf : p.Returns (f a) b) : p.Returns (x >>= f) b := by
  intro log
  obtain ⟨read, hrun, hread⟩ := hx log
  obtain ⟨more, hrun', hmore⟩ := hf (read ++ log)
  refine ⟨more ++ read, ?_, List.forall_mem_append.mpr ⟨hmore, hread⟩⟩
  rw [List.append_assoc, ← hrun', StateT.run_bind, hrun]
  rfl

theorem returns_load {a : UInt32} (ha : a < p.sz) : p.Returns (p.load a) (p.mem a) :=
  fun _ => ⟨[a], rfl, by simpa using ha⟩

theorem outside_iff (hsz : p.sz.toNat ≤ 0x80000000) {a k : UInt32} (hk : k.toNat < 2 ^ 31) :
    a ≥ p.sz ∨ a + k > p.sz ↔ ¬ (a.toNat < p.sz.toNat ∧ a.toNat + k.toNat ≤ p.sz.toNat) := by
  rw [ge_iff_le, gt_iff_lt, UInt32.le_iff_toNat_le, UInt32.lt_iff_toNat_lt]
  by_cases ha : a.toNat < p.sz.toNat
  · rw [UInt32.toNat_add, Nat.mod_eq_of_lt (by omega)]
    omega
  · omega

theorem returns_fetchint (hsz : p.sz.toNat ≤ 0x80000000) (a : UInt32) :
    p.Returns (p.fetchint a) (if a.toNat + 4 ≤ p.sz.toNat then some (p.word a) else none) := by
  have hfour : (4 : UInt32).toNat = 4 := rfl
  rw [fetchint]
  by_cases hin : a.toNat + 4 ≤ p.sz.toNat
  · rw [if_pos hin, if_neg (by rw [outside_iff hsz (by decide)]; omega)]
    have hload : ∀ k : UInt32, k.toNat < 4 → p.Returns (p.load (a + k)) (p.mem (a + k)) := by
      intro k hk
      refine returns_load (UInt32.lt_iff_toNat_lt.mpr ?_)
      rw [UInt32.toNat_add, Nat.mod_eq_of_lt (by omega)]
      omega
    have hzero := hload 0 (by decide)
    rw [UInt32.add_zero] at hzero
    have hword : p.Returns (p.loadWord a) (p.word a) := by
      refine hzero.bind ?_
      refine (hload 1 (by decide)).bind ?_
      refine (hload 2 (by decide)).bind ?_
      exact (hload 3 (by decide)).bind (returns_pure _)
    exact hword.bind (returns_pure _)
  · rw [if_neg hin, if_pos (by rw [outside_iff hsz (by decide)]; omega)]
    exact returns_pure _

theorem toInt_eq_toNat {size : Int32} (h : ¬ size < 0) : size.toInt = size.toUInt32.toNat := by
  rw [Int32.lt_iff_toInt_lt] at h
  have hcond : size.toInt = _ := BitVec.toInt_eq_toNat_cond size.toBitVec
  have hsmall := size.toUInt32.toNat_lt
  have hbits : size.toBitVec.toNat = size.toUInt32.toNat := rfl
  have hzero : (0 : Int32).toInt = 0 := rfl
  split at hcond <;> omega

theorem returns_argptr (hsz : p.sz.toNat ≤ 0x80000000) (n : UInt32) (size : Int32) :
    p.Returns (p.argptr n size)
      (if 0 ≤ size.toInt ∧ (p.esp + 4 + 4 * n).toNat + 4 ≤ p.sz.toNat ∧
          (p.word (p.esp + 4 + 4 * n)).toNat < p.sz.toNat ∧
          (p.word (p.esp + 4 + 4 * n)).toNat + size.toInt ≤ p.sz.toNat
        then some (p.word (p.esp + 4 + 4 * n)) else none) := by
  refine (returns_fetchint hsz (p.esp + 4 + 4 * n)).bind ?_
  generalize p.esp + 4 + 4 * n = a
  by_cases hin : a.toNat + 4 ≤ p.sz.toNat
  · rw [if_pos hin]
    by_cases hneg : size < 0
    · have hint : size.toInt < 0 := by rwa [Int32.lt_iff_toInt_lt] at hneg
      rw [if_neg (by omega)]
      simp only [hneg, true_or, if_true]
      exact returns_pure _
    · have hint := toInt_eq_toNat hneg
      have hlt := size.toInt_lt
      have hout := outside_iff hsz (a := p.word a) (k := size.toUInt32) (by omega)
      simp only [hneg, false_or, hout]
      by_cases hfit : (p.word a).toNat < p.sz.toNat ∧
          (p.word a).toNat + size.toUInt32.toNat ≤ p.sz.toNat
      · rw [if_neg (not_not.mpr hfit), if_pos (by omega)]
        exact returns_pure _
      · rw [if_pos hfit, if_neg (by omega)]
        exact returns_pure _
  · rw [if_neg hin, if_neg (by tauto)]
    exact returns_pure _

def byte (p : UserView) (a : ℕ) : UInt8 := p.mem (UInt32.ofNat a)

/-- What is to be returned for a string at `a`: the pointer and the distance of the first NUL
below the size of the process. -/
structure IsString (p : UserView) (a : UInt32) (r : Option (UInt32 × UInt32)) : Prop where
  succeeds : r.isSome ↔ a.toNat < p.sz.toNat ∧ ∃ k, a.toNat ≤ k ∧ k < p.sz.toNat ∧ p.byte k = 0
  value : ∀ x ∈ r, x.1 = a ∧ a.toNat + x.2.toNat < p.sz.toNat ∧
    p.byte (a.toNat + x.2.toNat) = 0 ∧ ∀ j < x.2.toNat, p.byte (a.toNat + j) ≠ 0

theorem returns_strLoop {pp s : UInt32} (hpp : pp.toNat ≤ s.toNat) :
    (∃ len, p.Returns (p.strLoop pp s) (some len) ∧ s.toNat ≤ pp.toNat + len.toNat ∧
      pp.toNat + len.toNat < p.sz.toNat ∧ p.byte (pp.toNat + len.toNat) = 0 ∧
      ∀ j, s.toNat ≤ j → j < pp.toNat + len.toNat → p.byte j ≠ 0) ∨
    (p.Returns (p.strLoop pp s) none ∧ ∀ j, s.toNat ≤ j → j < p.sz.toNat → p.byte j ≠ 0) := by
  induction hn : p.sz.toNat - s.toNat generalizing s with
  | zero =>
    have hend : ¬ s < p.sz := by
      rw [UInt32.lt_iff_toNat_lt]
      omega
    rw [strLoop, if_neg hend]
    exact Or.inr ⟨returns_pure _, fun j _ _ => by omega⟩
  | succ n ih =>
    have hin : s < p.sz := by
      rw [UInt32.lt_iff_toNat_lt]
      omega
    have hnext := toNat_succ hin
    have hbyte : p.byte s.toNat = p.mem s := by rw [byte, UInt32.ofNat_toNat]
    rw [strLoop, if_pos hin]
    by_cases hnul : p.mem s = 0
    · have hlen : pp.toNat + (s - pp).toNat = s.toNat := by
        rw [UInt32.toNat_sub_of_le _ _ (UInt32.le_iff_toNat_le.mpr hpp)]
        omega
      refine Or.inl ⟨s - pp, ?_, ?_⟩
      · refine (returns_load hin).bind ?_
        rw [if_pos hnul]
        exact returns_pure _
      · rw [hlen, hbyte]
        exact ⟨le_refl _, by omega, hnul, fun j _ _ => by omega⟩
    · have hload : ∀ r, p.Returns (p.strLoop pp (s + 1)) r → p.Returns (do
          if (← p.load s) = 0 then return some (s - pp) else p.strLoop pp (s + 1)) r := by
        intro r hr
        refine (returns_load hin).bind ?_
        rwa [if_neg hnul]
      have hfirst : ∀ j, s.toNat ≤ j → (s + 1).toNat ≤ j ∨ p.byte j ≠ 0 := by
        intro j hj
        rcases eq_or_lt_of_le hj with rfl | hlt
        · exact Or.inr (hbyte ▸ hnul)
        · exact Or.inl (by omega)
      rcases ih (s := s + 1) (by omega) (by omega) with
        ⟨len, hreturn, hle, hlt, hzero, hbefore⟩ | ⟨hreturn, hnone⟩
      · exact Or.inl ⟨len, hload _ hreturn, by omega, hlt, hzero,
          fun j hj hjlen => (hfirst j hj).elim (hbefore j · hjlen) id⟩
      · exact Or.inr ⟨hload _ hreturn, fun j hj hjsz => (hfirst j hj).elim (hnone j · hjsz) id⟩

theorem returns_fetchstr (p : UserView) (a : UInt32) :
    ∃ r, p.Returns (p.fetchstr a) r ∧ p.IsString a r := by
  by_cases hin : a.toNat < p.sz.toNat
  · have hpass : ¬ a ≥ p.sz := by
      rw [ge_iff_le, UInt32.le_iff_toNat_le]
      omega
    rw [fetchstr, if_neg hpass]
    rcases returns_strLoop (p := p) (le_refl a.toNat) with
      ⟨len, hreturn, hle, hlt, hzero, hbefore⟩ | ⟨hreturn, hnone⟩
    · refine ⟨some (a, len), hreturn.bind (returns_pure _), ?_, ?_⟩
      · exact iff_of_true rfl ⟨hin, _, hle, hlt, hzero⟩
      · rintro x ⟨⟩
        exact ⟨rfl, hlt, hzero, fun j (hj : j < len.toNat) => hbefore _ (by omega) (by omega)⟩
    · refine ⟨none, hreturn.bind (returns_pure _), ?_, by simp⟩
      simpa [hin] using hnone
  · have hfail : a ≥ p.sz := by
      rw [ge_iff_le, UInt32.le_iff_toNat_le]
      omega
    rw [fetchstr, if_pos hfail]
    exact ⟨none, returns_pure _, by simp [hin], by simp⟩

end UserView

/-- The checks of the arguments say exactly what they should say in unbounded arithmetic, and no
byte at or above the size of the process is read. -/
theorem argument_checks_exact (p : UserView) (hsz : p.sz.toNat ≤ 0x80000000) :
    (∀ a, p.Returns (p.fetchint a)
      (if a.toNat + 4 ≤ p.sz.toNat then some (p.word a) else none)) ∧
    (∀ a, ∃ r, p.Returns (p.fetchstr a) r ∧ p.IsString a r) ∧
    ∀ n : UInt32, ∀ a, a = p.esp + 4 + 4 * n →
      (∀ size : Int32, p.Returns (p.argptr n size)
        (if 0 ≤ size.toInt ∧ a.toNat + 4 ≤ p.sz.toNat ∧ (p.word a).toNat < p.sz.toNat ∧
            (p.word a).toNat + size.toInt ≤ p.sz.toNat
          then some (p.word a) else none)) ∧
      ∃ r, p.Returns (p.argstr n) r ∧
        if a.toNat + 4 ≤ p.sz.toNat then p.IsString (p.word a) r else r = none := by
  refine ⟨p.returns_fetchint hsz, p.returns_fetchstr, ?_⟩
  rintro n a rfl
  refine ⟨p.returns_argptr hsz n, ?_⟩
  have hint := p.returns_fetchint hsz (p.esp + 4 + 4 * n)
  by_cases hin : (p.esp + 4 + 4 * n).toNat + 4 ≤ p.sz.toNat
  · rw [if_pos hin] at hint
    obtain ⟨r, hreturn, hstring⟩ := p.returns_fetchstr (p.word (p.esp + 4 + 4 * n))
    exact ⟨r, hint.bind hreturn, by rwa [if_pos hin]⟩
  · rw [if_neg hin] at hint
    exact ⟨none, hint.bind (UserView.returns_pure _), by rw [if_neg hin]⟩

/-- A process of one page that is full of zeroes; its last word can be fetched. -/
def zeroPage : UserView := ⟨4096, 4000, fun _ => 0⟩

theorem argument_checks_exact_zeroPage :
    zeroPage.Returns (zeroPage.fetchint 4092) (some 0) ∧
      zeroPage.Returns (zeroPage.fetchint 4093) none := by
  have hchecks := (argument_checks_exact zeroPage (by decide)).1
  exact ⟨hchecks 4092, hchecks 4093⟩

end Xv6Kernel
