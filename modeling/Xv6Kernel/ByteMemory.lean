import Mathlib.Logic.Function.Basic
import Mathlib.Tactic

/-!
# Memory as bytes, and the two `memmove`s

`memmove` of `string.c` copies from the end when the destination begins inside the source;
`memmove` of `ulib.c` always copies from the beginning.  No pointer passes the end of memory.
-/

namespace Xv6Kernel

open Function

abbrev Memory := ℕ → UInt8

def ushortAt (m : Memory) (a : ℕ) : ℕ := (m a).toNat + 256 * (m (a + 1)).toNat

def uintAt (m : Memory) (a : ℕ) : ℕ := ushortAt m a + 65536 * ushortAt m (a + 2)

/-- `while(n-- > 0) *d++ = *s++;` -/
def copyUp : ℕ → ℕ → ℕ → Memory → Memory
  | _, _, 0, m => m
  | d, s, n + 1, m => copyUp (d + 1) (s + 1) n (Function.update m d (m s))

/-- `while(n-- > 0) *--d = *--s;` -/
def copyDown : ℕ → ℕ → ℕ → Memory → Memory
  | _, _, 0, m => m
  | d, s, n + 1, m => copyDown (d - 1) (s - 1) n (Function.update m (d - 1) (m (s - 1)))

/-- `memmove` of `string.c` -/
def kernelMemmove (dst src n : ℕ) (m : Memory) : Memory :=
  if src < dst ∧ src + n > dst then copyDown (dst + n) (src + n) n m else copyUp dst src n m

/-- `memmove` of `ulib.c` -/
def userMemmove (dst src : ℕ) (n : ℤ) (m : Memory) : Memory :=
  copyUp dst src n.toNat m

/-- The destination holds the source bytes, everything else is unchanged. -/
def moved (dst src n : ℕ) (m : Memory) : Memory := fun a =>
  if dst ≤ a ∧ a < dst + n then m (src + (a - dst)) else m a

theorem copyDown_eq_moved (d s n : ℕ) (m : Memory) (hlt : s < d) :
    copyDown (d + n) (s + n) n m = moved d s n m := by
  induction n generalizing m with
  | zero =>
    funext a
    exact (if_neg (by omega)).symm
  | succ n ih =>
    simp only [copyDown, ← Nat.add_assoc, Nat.add_sub_cancel, ih]
    funext a
    -- the byte just written lies above the source bytes that are still to be read
    grind [moved, update_apply]

theorem copyUp_outside {d s n a : ℕ} {m : Memory} (ha : a < d ∨ d + n ≤ a) :
    copyUp d s n m a = m a := by
  induction n generalizing d s m with
  | zero => rfl
  | succ n ih => rw [copyUp, ih (by omega), update_of_ne (by omega)]

/-- A byte that was overwritten before it is read is read as it is in the end. -/
theorem copyUp_apply {d s n i : ℕ} {m : Memory} (hi : i < n) :
    copyUp d s n m (d + i) =
      if s < d ∧ d ≤ s + i then copyUp d s n m (s + i) else m (s + i) := by
  induction n generalizing d s m i with
  | zero => omega
  | succ n ih =>
    rw [copyUp]
    have hfirst : copyUp (d + 1) (s + 1) n (update m d (m s)) d = m s := by
      rw [copyUp_outside (by omega), update_self]
    cases i with
    | zero =>
      rw [if_neg (by omega)]
      exact hfirst
    | succ i =>
      have hnext := ih (d := d + 1) (s := s + 1) (m := update m d (m s)) (i := i) (by omega)
      grind [update_apply]

/-- Source bytes that a forward copy overwrites before it reads them keep their value. -/
def Repeats (dst src n : ℕ) (m : Memory) : Prop :=
  src < dst → ∀ i, dst + i < src + n → m (dst + i) = m (src + i)

theorem copyUp_eq_moved_iff (d s n : ℕ) (m : Memory) :
    copyUp d s n m = moved d s n m ↔ Repeats d s n m := by
  constructor
  · intro hmoved hlt i hi
    have hread := copyUp_apply (d := d) (s := s) (m := m) (i := d - s + i) (n := n) (by omega)
    rw [if_pos (by omega), hmoved, show s + (d - s + i) = d + i by omega] at hread
    grind [moved]
  · intro hrepeats
    funext a
    unfold moved
    split
    next ha =>
      obtain ⟨i, rfl⟩ := Nat.exists_eq_add_of_le ha.1
      -- the byte that is read was written earlier, at a smaller distance from `d`
      induction i using Nat.strong_induction_on with
      | _ i ih =>
        rw [copyUp_apply (by omega), Nat.add_sub_cancel_left]
        split
        next hback =>
          have hsame := hrepeats hback.1 (s + i - d) (by omega)
          have hearlier := ih (s + i - d) (by omega) (by omega)
          rw [show d + (s + i - d) = s + i by omega] at hsame hearlier
          rw [hearlier, hsame]
        next => rfl
    next ha => exact copyUp_outside (by omega)

theorem kernelMemmove_eq_moved (dst src n : ℕ) (m : Memory) :
    kernelMemmove dst src n m = moved dst src n m := by
  unfold kernelMemmove
  split
  next hinside => exact copyDown_eq_moved dst src n m hinside.1
  next hoff => exact (copyUp_eq_moved_iff dst src n m).mpr fun hlt i hi => by omega

/-- The `memmove` of user programs does what the one of the kernel does, and what it should,
exactly if the destination does not begin inside the source or the source repeats itself at that
distance. -/
theorem memmove_agree_iff (m : Memory) (dst src n : ℕ) :
    (userMemmove dst src n m = kernelMemmove dst src n m ∧
      kernelMemmove dst src n m = moved dst src n m) ↔ Repeats dst src n m := by
  rw [kernelMemmove_eq_moved, and_iff_left rfl]
  exact copyUp_eq_moved_iff dst src n m

/-- Moving the two bytes at 0x4000 up by one. -/
theorem memmove_overlap_differs :
    userMemmove 0x4001 0x4000 2 (fun a => if a = 0x4000 then 97 else 98) 0x4002 = 97 ∧
      kernelMemmove 0x4001 0x4000 2 (fun a => if a = 0x4000 then 97 else 98) 0x4002 = 98 := by
  decide

end Xv6Kernel
