import Mathlib.Logic.Function.Basic
import Mathlib.Data.Nat.Notation
import Mathlib.Tactic

/-!
# Allocation maps

Numbered units are handed out to places: `number i` is the unit at place `i`,
or 0 if the place is empty.  A map of marks says which units are in use.  The
map is exact when every unit at a place is one that may be handed out, is
marked, and is at no other place, and every marked unit is at some place.  A
place that is filled with an unmarked unit keeps it exact as long as the mark is
changed too.
-/

namespace BlockAllocation

open Function

variable {ι : Type} {fit : ℕ → Prop} {number : ι → ℕ} {inUse : ℕ → Bool}

structure Exact (fit : ℕ → Prop) (number : ι → ℕ) (inUse : ℕ → Bool) :
    Prop where
  usable : ∀ i, number i ≠ 0 → fit (number i)
  marked : ∀ i, number i ≠ 0 → inUse (number i) = true
  once : ∀ i j, number i ≠ 0 → number i = number j → i = j
  found : ∀ b, b ≠ 0 → fit b → inUse b = true → ∃ i, number i = b

namespace Exact

theorem number_ne (hexact : Exact fit number inUse) {b : ℕ}
    (hfree : inUse b = false) (hb : b ≠ 0) (i : ι) : number i ≠ b := by
  intro heq
  have hmarked := hexact.marked i (heq ▸ hb)
  rw [heq, hfree] at hmarked
  cases hmarked

variable [DecidableEq ι] {i : ι}

theorem assign (hexact : Exact fit number inUse) (hempty : number i = 0)
    {b : ℕ} (hb : b ≠ 0) (hfit : fit b) (hfree : inUse b = false) :
    Exact fit (update number i b) (update inUse b true) := by
  have hne : ∀ j, number j ≠ b := hexact.number_ne hfree hb
  constructor
  case usable =>
    intro j hj
    by_cases hji : j = i
    · subst j
      rw [update_self]
      exact hfit
    · rw [update_of_ne hji] at hj ⊢
      exact hexact.usable j hj
  case marked =>
    intro j hj
    by_cases hji : j = i
    · subst j
      simp
    · rw [update_of_ne hji] at hj ⊢
      rw [update_of_ne (hne j)]
      exact hexact.marked j hj
  case once =>
    intro j k hj hjk
    by_cases hji : j = i <;> by_cases hki : k = i
    · rw [hji, hki]
    · subst j
      rw [update_self, update_of_ne hki] at hjk
      exact (hne k hjk.symm).elim
    · subst k
      rw [update_self, update_of_ne hji] at hjk
      exact (hne j hjk).elim
    · rw [update_of_ne hji] at hj hjk
      rw [update_of_ne hki] at hjk
      exact hexact.once j k hj hjk
  case found =>
    intro c hzero hc hmarked
    by_cases hcb : c = b
    · exact ⟨i, by rw [update_self, hcb]⟩
    · rw [update_of_ne hcb] at hmarked
      obtain ⟨j, hj⟩ := hexact.found c hzero hc hmarked
      by_cases hji : j = i
      · subst j
        exact (hzero (hj ▸ hempty)).elim
      · exact ⟨j, by rw [update_of_ne hji, hj]⟩

end Exact

end BlockAllocation
