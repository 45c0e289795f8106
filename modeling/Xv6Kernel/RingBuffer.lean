import Mathlib.Data.BitVec
import Mathlib.Logic.Function.Basic
import Mathlib.Tactic

/-!
# Ring buffers with free-running counters

A buffer of `n` cells with two counters of `w` bits that are only ever
incremented and wrap around.  A cell is addressed by a counter modulo `n`, and
the buffer is full or empty when the counters differ by `n` or by nothing.
This works when `n` divides `2^w` and is smaller: the counters are then the
residues of two unbounded counters that are at most `n` apart.

`Tracks` ties a ring to the list of everything ever put into it and to the
number of elements taken out.
-/

namespace RingBuffer

open List

variable {α : Type} {w n : ℕ}

structure Ring (α : Type) (w n : ℕ) where
  data : Fin n → α
  nread : BitVec w
  nwrite : BitVec w

def cell (n : ℕ) [NeZero n] (position : ℕ) : Fin n :=
  ⟨position % n, Nat.mod_lt _ (NeZero.pos n)⟩

namespace Ring

variable [NeZero n]

def Full (r : Ring α w n) : Prop := r.nwrite = r.nread + BitVec.ofNat w n

def Empty (r : Ring α w n) : Prop := r.nread = r.nwrite

instance (r : Ring α w n) : Decidable r.Full := by
  unfold Full
  infer_instance

instance (r : Ring α w n) : Decidable r.Empty := by
  unfold Empty
  infer_instance

def put (r : Ring α w n) (a : α) : Ring α w n :=
  { r with
    data := Function.update r.data (cell n r.nwrite.toNat) a
    nwrite := r.nwrite + 1 }

def front (r : Ring α w n) : α := r.data (cell n r.nread.toNat)

def drop (r : Ring α w n) : Ring α w n :=
  { r with nread := r.nread + 1 }

def last (r : Ring α w n) : α := r.data (cell n (r.nwrite - 1).toNat)

def erase (r : Ring α w n) : Ring α w n :=
  { r with nwrite := r.nwrite - 1 }

/-- The ring holds what has been put since the first `taken` elements. -/
structure Tracks (r : Ring α w n) (stored : List α) (taken : ℕ) : Prop where
  nread : r.nread = BitVec.ofNat w taken
  nwrite : r.nwrite = BitVec.ofNat w stored.length
  order : taken ≤ stored.length
  room : stored.length ≤ taken + n
  content : ∀ j, taken ≤ j → (hj : j < stored.length) →
    r.data (cell n j) = stored[j]

theorem tracks_empty (data : Fin n → α) : Tracks (w := w) ⟨data, 0, 0⟩ [] 0 := by
  constructor <;> simp

end Ring

theorem cell_ofNat [NeZero n] (hdvd : n ∣ 2 ^ w) (position : ℕ) :
    cell n (BitVec.ofNat w position).toNat = cell n position := by
  apply Fin.ext
  simp [cell, Nat.mod_mod_of_dvd position hdvd]

theorem cell_inj [NeZero n] {i j : ℕ} (hle : i ≤ j) (hlt : j < i + n)
    (heq : cell n i = cell n j) : i = j := by
  have hmod : i % n = j % n := congrArg Fin.val heq
  have hdvd : n ∣ j - i := (Nat.modEq_iff_dvd' hle).mp hmod
  have hzero : j - i = 0 := Nat.eq_zero_of_dvd_of_lt hdvd (by omega)
  omega

theorem ofNat_inj {i j : ℕ} (hle : i ≤ j) (hlt : j < i + 2 ^ w)
    (heq : BitVec.ofNat w i = BitVec.ofNat w j) : i = j := by
  have hmod : i % 2 ^ w = j % 2 ^ w := by
    simpa using congrArg BitVec.toNat heq
  have hdvd : 2 ^ w ∣ j - i := (Nat.modEq_iff_dvd' hle).mp hmod
  have hzero : j - i = 0 := Nat.eq_zero_of_dvd_of_lt hdvd (by omega)
  omega

namespace Ring

section Tracking

variable [NeZero n] {r : Ring α w n} {stored : List α} {taken : ℕ}

section

variable (htracks : r.Tracks stored taken)

include htracks

theorem Tracks.full_iff (hlt : n < 2 ^ w) : r.Full ↔ stored.length = taken + n := by
  have hsum : BitVec.ofNat w taken + BitVec.ofNat w n =
      BitVec.ofNat w (taken + n) := (BitVec.ofNat_add taken n).symm
  unfold Full
  rw [htracks.nread, htracks.nwrite, hsum]
  constructor
  · intro heq
    have hroom := htracks.room
    have horder := htracks.order
    exact ofNat_inj hroom (by omega) heq
  · intro heq
    rw [heq]

theorem Tracks.empty_iff (hlt : n < 2 ^ w) : r.Empty ↔ stored.length = taken := by
  unfold Empty
  rw [htracks.nread, htracks.nwrite]
  constructor
  · intro heq
    have hroom := htracks.room
    exact (ofNat_inj htracks.order (by omega) heq).symm
  · intro heq
    rw [heq]

theorem Tracks.distance (hlt : n < 2 ^ w) : (r.nwrite - r.nread).toNat = stored.length - taken := by
  have hroom := htracks.room
  have horder := htracks.order
  have hsum : BitVec.ofNat w stored.length =
      BitVec.ofNat w taken + BitVec.ofNat w (stored.length - taken) := by
    rw [← BitVec.ofNat_add]
    congr 1
    omega
  rw [htracks.nread, htracks.nwrite, hsum, add_sub_cancel_left]
  simp only [BitVec.toNat_ofNat]
  exact Nat.mod_eq_of_lt (by omega)

theorem Tracks.put (hdvd : n ∣ 2 ^ w) (hlt : n < 2 ^ w)
    (hfull : ¬ r.Full) (a : α) : (r.put a).Tracks (stored ++ [a]) taken := by
  have hne : stored.length ≠ taken + n := fun heq =>
    hfull ((htracks.full_iff hlt).mpr heq)
  have hroom := htracks.room
  have horder := htracks.order
  have hcell : cell n r.nwrite.toNat = cell n stored.length := by
    rw [htracks.nwrite, cell_ofNat hdvd]
  constructor
  case nread => exact htracks.nread
  case nwrite =>
    simp only [Ring.put, length_append, length_singleton]
    rw [htracks.nwrite, BitVec.ofNat_add]
    rfl
  case order =>
    rw [length_append]
    omega
  case room =>
    rw [length_append, length_singleton]
    omega
  case content =>
    intro j hj hjlt
    rw [length_append, length_singleton] at hjlt
    simp only [Ring.put, hcell]
    by_cases hlast : j = stored.length
    · subst j
      simp
    · have hold : j < stored.length := by omega
      have hother : cell n j ≠ cell n stored.length := by
        intro heq
        exact hlast (cell_inj (by omega) (by omega) heq)
      rw [Function.update_of_ne hother, getElem_append_left hold]
      exact htracks.content j hj hold

theorem Tracks.front (hdvd : n ∣ 2 ^ w)
    (hlt : taken < stored.length) : r.front = stored[taken] := by
  unfold Ring.front
  rw [htracks.nread, cell_ofNat hdvd]
  exact htracks.content taken (le_refl taken) hlt

theorem Tracks.drop (hlt : taken < stored.length) : r.drop.Tracks stored (taken + 1) := by
  have hroom := htracks.room
  constructor
  case nread =>
    simp only [Ring.drop]
    rw [htracks.nread, BitVec.ofNat_add]
    rfl
  case nwrite => exact htracks.nwrite
  case order => omega
  case room => omega
  case content =>
    intro j hj hjlt
    exact htracks.content j (by omega) hjlt

end

theorem ofNat_succ_sub_one (position : ℕ) :
    BitVec.ofNat w (position + 1) - 1 = BitVec.ofNat w position := by
  rw [BitVec.ofNat_add]
  exact add_sub_cancel_right _ _

theorem Tracks.last {a : α} (htracks : r.Tracks (stored ++ [a]) taken)
    (hdvd : n ∣ 2 ^ w) (hle : taken ≤ stored.length) : r.last = a := by
  have hcontent := htracks.content stored.length hle (by simp)
  unfold Ring.last
  rw [htracks.nwrite, length_append, length_singleton, ofNat_succ_sub_one,
    cell_ofNat hdvd, hcontent]
  simp

theorem Tracks.erase {a : α} (htracks : r.Tracks (stored ++ [a]) taken)
    (hle : taken ≤ stored.length) : r.erase.Tracks stored taken := by
  have hroom := htracks.room
  rw [length_append, length_singleton] at hroom
  constructor
  case nread => exact htracks.nread
  case nwrite =>
    simp only [Ring.erase]
    rw [htracks.nwrite, length_append, length_singleton, ofNat_succ_sub_one]
  case order => exact hle
  case room => omega
  case content =>
    intro j hj hjlt
    have hold := htracks.content j hj (by
      rw [length_append]
      omega)
    rw [getElem_append_left hjlt] at hold
    exact hold

end Tracking

end Ring

end RingBuffer
