import Mathlib.Data.BitVec
import Mathlib.Data.Fintype.Basic
import Mathlib.Tactic

/-!
# Words seen as bytes

An array of 32-bit words is also an array of four times as many bytes, the low
byte of a word first.  Bytes are numbered from the start of the array.
-/

namespace WordBytes

variable {n : ℕ}

abbrev Byte := BitVec 8

abbrev Words (n : ℕ) := Fin n → BitVec 32

def byteAt (words : Words n) (k : ℕ) : Byte :=
  if hk : k / 4 < n then (words ⟨k / 4, hk⟩).extractLsb' (8 * (k % 4)) 8 else 0

def ofBytes (bytes : ℕ → Byte) : Words n := fun j =>
  bytes (4 * j + 3) ++ bytes (4 * j + 2) ++ bytes (4 * j + 1) ++ bytes (4 * j)

def patch (words : Words n) (off m : ℕ) (src : ℕ → Byte) : Words n :=
  ofBytes fun k => if off ≤ k ∧ k < off + m then src (k - off) else byteAt words k

theorem extract_append (a b c d : Byte) (i : ℕ) (hi : i < 4) :
    (a ++ b ++ c ++ d : BitVec 32).extractLsb' (8 * i) 8 =
      if i = 0 then d else if i = 1 then c else if i = 2 then b else a := by
  interval_cases i <;> ext j hj <;> simp <;> grind

theorem byteAt_ofBytes (bytes : ℕ → Byte) {k : ℕ} (hk : k < 4 * n) :
    byteAt (ofBytes bytes : Words n) k = bytes k := by
  have hword : k / 4 < n := by omega
  rw [byteAt, dif_pos hword, ofBytes, extract_append _ _ _ _ _ (by omega)]
  split_ifs with h0 h1 h2
  · exact congrArg bytes (by simp only; omega)
  · exact congrArg bytes (by simp only; omega)
  · exact congrArg bytes (by simp only; omega)
  · exact congrArg bytes (by simp only; omega)

theorem byteAt_patch (words : Words n) (off m : ℕ) (src : ℕ → Byte) {k : ℕ} (hk : k < 4 * n) :
    byteAt (patch words off m src) k =
      if off ≤ k ∧ k < off + m then src (k - off) else byteAt words k :=
  byteAt_ofBytes _ hk

theorem byteAt_zero (k : ℕ) : byteAt (fun _ => 0 : Words n) k = 0 := by
  unfold byteAt
  split
  · ext j hj
    simp
  · rfl

end WordBytes
