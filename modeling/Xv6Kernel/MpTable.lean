import Xv6Kernel.ByteMemory
import Mathlib.Data.UInt

/-!
# The multiprocessor table

`mpinit` walks over the entries of a table that the firmware has left in memory.  The arms of
its `switch` move the pointer on, except for the default one: its `break` leaves the `switch`, not
the loop.  The loop therefore ends exactly if no entry is of an unknown type.
-/

namespace Xv6Kernel.Mp

abbrev ncpu : ℕ := 2

def p2v (a : ℕ) : ℕ := (a + 0x80000000) % 2 ^ 32

def bytesAt (m : Memory) (addr len : ℕ) : List UInt8 :=
  (List.range len).map fun i => m (addr + i)

def sum (m : Memory) (addr len : ℕ) : UInt8 := (bytesAt m addr len).sum

/-- `_MP_` and `PCMP` -/
def mpSignature : List UInt8 := [0x5F, 0x4D, 0x50, 0x5F]

def confSignature : List UInt8 := [0x50, 0x43, 0x4D, 0x50]

def mpsearch1 (m : Memory) (a len : ℕ) : Option ℕ :=
  ((List.range ((len + 15) / 16)).map fun i => p2v a + 16 * i).find? fun p =>
    bytesAt m p 4 = mpSignature ∧ sum m p 16 = 0

def mpsearch (m : Memory) : Option ℕ :=
  let bda := p2v 0x400
  let ebda := 16 * ushortAt m (bda + 0x0E)
  let top := 1024 * ushortAt m (bda + 0x13)
  (if ebda ≠ 0 then mpsearch1 m ebda 1024
    else mpsearch1 m ((top + 2 ^ 32 - 1024) % 2 ^ 32) 1024).or (mpsearch1 m 0xF0000 0x10000)

/-- The structure found and the table it points to. -/
def mpconfig (m : Memory) : Option (ℕ × ℕ) := do
  let mp ← mpsearch m
  let conf := p2v (uintAt m (mp + 4))
  let version := m (conf + 6)
  if uintAt m (mp + 4) = 0 ∨ bytesAt m conf 4 ≠ confSignature ∨ version ≠ 1 ∧ version ≠ 4 ∨
      sum m conf (ushortAt m (conf + 4)) ≠ 0 then none
  else some (mp, conf)

structure MpState where
  lapic : ℕ
  p : ℕ
  /-- `apicid` of the first `ncpu` elements of `cpus` -/
  cpus : List UInt8
  ioapicid : UInt8
  ismp : Bool
  /-- whether the interrupt mode register is set -/
  imcr : Bool

def mpEntry (m : Memory) (st : MpState) : MpState :=
  match (m st.p).toNat with
  | 0 =>
      { st with
        cpus := if st.cpus.length < ncpu then st.cpus ++ [m (st.p + 1)] else st.cpus
        p := st.p + 20 }
  | 2 => { st with ioapicid := m (st.p + 1), p := st.p + 8 }
  | 1 | 3 | 4 => { st with p := st.p + 8 }
  | _ => { st with ismp := false }

/-- The loop; `none` if it has not ended after `fuel` rounds. -/
def entryLoop (m : Memory) (e : ℕ) : ℕ → MpState → Option MpState
  | 0, _ => none
  | fuel + 1, st => if st.p < e then entryLoop m e fuel (mpEntry m st) else some st

def start (m : Memory) (conf : ℕ) : MpState where
  lapic := uintAt m (conf + 36)
  p := conf + 44
  cpus := []
  ioapicid := 0
  ismp := true
  imcr := false

def mpinit (m : Memory) (fuel : ℕ) : Option (Except String MpState) :=
  match mpconfig m with
  | none => some (.error "Expect to run on an SMP")
  | some (mp, conf) =>
      (entryLoop m (conf + ushortAt m (conf + 4)) fuel (start m conf)).map fun st =>
        if st.ismp then .ok { st with imcr := m (mp + 12) ≠ 0 }
        else .error "Didn't find a suitable machine"

def entryAt (m : Memory) (p : ℕ) : ℕ → ℕ
  | 0 => p
  | k + 1 => entryAt m (p + if m p = 0 then 20 else 8) k

/-- All entries from `p` on that begin before `e` have one of the types 0 to 4. -/
def KnownTypes (m : Memory) (e p : ℕ) : Prop :=
  ∀ k, entryAt m p k < e → m (entryAt m p k) ≤ 4

theorem mpEntry_p (m : Memory) (st : MpState) :
    (mpEntry m st).p =
      if m st.p ≤ 4 then st.p + (if m st.p = 0 then 20 else 8) else st.p := by
  have hle : m st.p ≤ 4 ↔ (m st.p).toNat ≤ 4 := UInt8.le_iff_toNat_le
  have hzero : m st.p = 0 ↔ (m st.p).toNat = 0 := UInt8.toNat_inj.symm
  unfold mpEntry
  split <;> grind

variable {m : Memory} {e : ℕ} {st : MpState}

theorem mpEntry_cpus (hcpus : st.cpus.length ≤ ncpu) : (mpEntry m st).cpus.length ≤ ncpu := by
  unfold mpEntry
  split <;> grind

theorem le_entryAt (m : Memory) (p k : ℕ) : p ≤ entryAt m p k := by
  induction k generalizing p with
  | zero => exact le_rfl
  | succ k ih => exact (Nat.le_add_right p _).trans (ih _)

theorem knownTypes_of_le {p : ℕ} (hle : e ≤ p) : KnownTypes m e p := by
  intro k hk
  have hp := le_entryAt m p k
  omega

theorem knownTypes_iff {p : ℕ} (hlt : p < e) :
    KnownTypes m e p ↔ m p ≤ 4 ∧ KnownTypes m e (p + if m p = 0 then 20 else 8) := by
  constructor
  · intro hknown
    exact ⟨hknown 0 hlt, fun k => hknown (k + 1)⟩
  · rintro ⟨hfirst, hrest⟩ (_ | k)
    · exact fun _ => hfirst
    · exact hrest k

theorem knownTypes_of_entryLoop {fuel : ℕ} {r : MpState}
    (hloop : entryLoop m e fuel st = some r) : KnownTypes m e st.p := by
  induction fuel generalizing st with
  | zero => cases hloop
  | succ fuel ih =>
    by_cases hlt : st.p < e
    · rw [entryLoop, if_pos hlt] at hloop
      have hnext := ih hloop
      rw [mpEntry_p] at hnext
      split at hnext
      next hknown => exact (knownTypes_iff hlt).mpr ⟨hknown, hnext⟩
      next => exact hnext
    · exact knownTypes_of_le (by omega)

theorem exists_entryLoop (hknown : KnownTypes m e st.p) :
    ∃ fuel r, entryLoop m e fuel st = some r := by
  -- every entry of a known type leaves less of the table
  induction hleft : e - st.p using Nat.strong_induction_on generalizing st with
  | _ left ih =>
    by_cases hlt : st.p < e
    · obtain ⟨hfirst, hrest⟩ := (knownTypes_iff hlt).mp hknown
      have hp := mpEntry_p m st
      rw [if_pos hfirst] at hp
      rw [← hp] at hrest
      obtain ⟨fuel, r, hloop⟩ := ih _ (by split at hp <;> omega) hrest rfl
      exact ⟨fuel + 1, r, (if_pos hlt).trans hloop⟩
    · exact ⟨1, st, if_neg hlt⟩

/-- On a table that `mpconfig` accepts `mpinit` comes to an end exactly if every entry that
begins inside the table has a known type; and it never counts more than `NCPU` processors. -/
theorem mpinit_ends_iff {mp conf : ℕ} (hconf : mpconfig m = some (mp, conf)) :
    ((∃ fuel r, mpinit m fuel = some r) ↔
      KnownTypes m (conf + ushortAt m (conf + 4)) (conf + 44)) ∧
    ∀ k, ((mpEntry m)^[k] (start m conf)).cpus.length ≤ ncpu := by
  refine ⟨?_, ?_⟩
  · simp only [mpinit, hconf, Option.map_eq_some_iff]
    constructor
    · rintro ⟨fuel, _, st, hloop, _⟩
      exact knownTypes_of_entryLoop hloop
    · intro hknown
      obtain ⟨fuel, st, hloop⟩ := @exists_entryLoop m _ (start m conf) hknown
      exact ⟨fuel, _, st, hloop, rfl⟩
  · intro k
    induction k with
    | zero => exact Nat.zero_le _
    | succ k ih =>
        rw [Function.iterate_succ_apply']
        exact mpEntry_cpus ih

/-- A table with one entry of 8 bytes, of the given type, behind the first KB of the extended
BIOS data area. -/
def tableWith (type : UInt8) : Memory := fun a =>
  ([(0x8000040E, 0xC0), (0x8000040F, 0x9F),
    (0x8009FC00, 0x5F), (0x8009FC01, 0x4D), (0x8009FC02, 0x50), (0x8009FC03, 0x5F),
    (0x8009FC05, 0xFD), (0x8009FC06, 9), (0x8009FC08, 1), (0x8009FC09, 4), (0x8009FC0A, 154),
    (0x8009FD00, 0x50), (0x8009FD01, 0x43), (0x8009FD02, 0x4D), (0x8009FD03, 0x50),
    (0x8009FD04, 52), (0x8009FD06, 4), (0x8009FD07, 152 - type),
    (0x8009FD2C, type)].lookup a).getD 0

theorem mpconfig_tableWith_five : mpconfig (tableWith 5) = some (0x8009FC00, 0x8009FD00) := by
  decide +kernel

theorem mpinit_ends_bus : ∃ fuel r, mpinit (tableWith 1) fuel = some r := by
  have hconf : mpconfig (tableWith 1) = some (0x8009FC00, 0x8009FD00) := by decide +kernel
  have hends := (mpinit_ends_iff hconf).1
  refine hends.mpr ((knownTypes_iff (by decide +kernel)).mpr ⟨by decide +kernel, ?_⟩)
  exact knownTypes_of_le (by decide +kernel)

/-- An entry of type 5. -/
theorem mpinit_hangs_on_unknown :
    mpconfig (tableWith 5) = some (0x8009FC00, 0x8009FD00) ∧
      ∀ fuel, mpinit (tableWith 5) fuel = none := by
  refine ⟨mpconfig_tableWith_five, ?_⟩
  intro fuel
  simp only [mpinit, mpconfig_tableWith_five, Option.map_eq_none_iff]
  by_contra hends
  obtain ⟨r, hloop⟩ := Option.ne_none_iff_exists'.mp hends
  have hknown := knownTypes_of_entryLoop hloop 0
  revert hknown
  decide +kernel

end Xv6Kernel.Mp
