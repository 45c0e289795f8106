import Mathlib.Data.List.Basic
import Mathlib.Logic.Relation
import Mathlib.Tactic

/-!
# Redo logs on a disk that may lose power between two writes

A disk is a function from addresses to blocks.  A redo log keeps at one
address, the header, a list of addresses, and in numbered slots the blocks that
belong there.  The view of such a disk has the logged blocks in place; it is
what a completed recovery leaves at the addresses outside the log.

Power may fail after any single write, so a protocol that writes to such a disk
is judged by the disks after every prefix of its writes.  The lemmas say what
one write does to the view: filling a slot of an empty log, installing a logged
block and erasing an installed log do not change it, and writing the header of
a filled log changes it at once to the new contents.
-/

namespace RedoLog

open Function List

variable {A B : Type} [DecidableEq A]

def applyWrites (d : A → B) (writes : List (A × B)) : A → B :=
  writes.foldl (fun d write => Function.update d write.1 write.2) d

@[simp] theorem applyWrites_nil (d : A → B) : applyWrites d [] = d := rfl

theorem applyWrites_concat (d : A → B) (writes : List (A × B)) (a : A) (b : B) :
    applyWrites d (writes ++ [(a, b)]) =
      update (applyWrites d writes) a b := by
  simp [applyWrites]

def EveryPrefix (P : List (A × B) → Prop) (writes : List (A × B)) : Prop :=
  ∀ k, P (writes.take k)

omit [DecidableEq A] in
theorem EveryPrefix.last {P : List (A × B) → Prop} {writes : List (A × B)}
    (hall : EveryPrefix P writes) : P writes := by
  have hlast := hall writes.length
  rw [take_length] at hlast
  exact hlast

omit [DecidableEq A] in
theorem everyPrefix_nil {P : List (A × B) → Prop} (hnil : P []) : EveryPrefix P [] := by
  intro k
  rw [take_nil]
  exact hnil

omit [DecidableEq A] in
theorem EveryPrefix.concat {P : List (A × B) → Prop} {writes : List (A × B)}
    {write : A × B} (hall : EveryPrefix P writes)
    (hlast : P (writes ++ [write])) : EveryPrefix P (writes ++ [write]) := by
  intro k
  by_cases hk : k ≤ writes.length
  · rw [take_append_of_le_length hk]
    exact hall k
  · rw [take_of_length_le (by simp; omega)]
    exact hlast

/-- Where a log is kept and how its header is read. -/
structure Layout (A B : Type) where
  header : A
  slot : ℕ → A
  slots : ℕ
  decode : B → List A

namespace Layout

variable (L : Layout A B)

def Home (a : A) : Prop := a ≠ L.header ∧ ∀ i, i < L.slots → a ≠ L.slot i

/-- The list can be the contents of the log. -/
structure Fits (addresses : List A) : Prop where
  nodup : addresses.Nodup
  home : ∀ a ∈ addresses, L.Home a
  length : addresses.length ≤ L.slots

/-- The slots lie apart from each other and from the header. -/
structure Separate : Prop where
  slot : ∀ i j, i < L.slots → j < L.slots → L.slot i = L.slot j → i = j
  header : ∀ i, i < L.slots → L.slot i ≠ L.header

def logged (d : A → B) : List A := L.decode (d L.header)

def view (d : A → B) (a : A) : B :=
  if a ∈ L.logged d then d (L.slot ((L.logged d).idxOf a)) else d a

variable {L} {d : A → B} {a : A} {b : B}

theorem view_of_logged_nil (hempty : L.logged d = []) (a : A) : L.view d a = d a := by
  simp [view, hempty]

theorem view_of_mem {i : ℕ} (hi : i < (L.logged d).length) (hnodup : (L.logged d).Nodup) :
    L.view d (L.logged d)[i] = d (L.slot i) := by
  simp [view, List.Nodup.idxOf_getElem hnodup]

theorem logged_update_of_ne (ha : a ≠ L.header) : L.logged (update d a b) = L.logged d := by
  simp [logged, Ne.symm ha]

theorem view_fill {i : ℕ} (hsep : L.Separate) (hi : i < L.slots) (hempty : L.logged d = [])
    (ha : L.Home a) : L.view (update d (L.slot i) b) a = L.view d a := by
  have hlogged := logged_update_of_ne (d := d) (b := b) (hsep.header i hi)
  rw [view_of_logged_nil (hlogged.trans hempty), view_of_logged_nil hempty,
    update_of_ne (ha.2 i hi)]

theorem view_commit {contents : A → B} (hsep : L.Separate) (hfits : L.Fits (L.decode b))
    (hfilled : ∀ i (hi : i < (L.decode b).length), d (L.slot i) = contents (L.decode b)[i])
    (hrest : ∀ a, L.Home a → a ∉ L.decode b → d a = contents a) (ha : L.Home a) :
    L.view (update d L.header b) a = contents a := by
  have hlogged : L.logged (update d L.header b) = L.decode b := by
    simp [logged]
  unfold view
  rw [hlogged]
  split
  next hmem =>
    have hi := idxOf_lt_length_of_mem hmem
    have hslot : L.slot ((L.decode b).idxOf a) ≠ L.header :=
      hsep.header _ (lt_of_lt_of_le hi hfits.length)
    rw [update_of_ne hslot, hfilled _ hi, getElem_idxOf hi]
  next hmem =>
    rw [update_of_ne ha.1]
    exact hrest a ha hmem

theorem view_install {i : ℕ} (hfits : L.Fits (L.logged d)) (hi : i < (L.logged d).length) (a : A) :
    L.view (update d (L.logged d)[i] b) a = L.view d a := by
  have hhome := hfits.home _ (getElem_mem hi)
  have hlogged := logged_update_of_ne (d := d) (b := b) hhome.1
  unfold view
  rw [hlogged]
  split
  next hmem =>
    have hj := idxOf_lt_length_of_mem hmem
    have hslot := hhome.2 _ (lt_of_lt_of_le hj hfits.length)
    rw [update_of_ne (Ne.symm hslot)]
  next hmem =>
    have hne : a ≠ (L.logged d)[i] := by
      intro heq
      exact hmem (heq ▸ getElem_mem hi)
    rw [update_of_ne hne]

theorem view_erase (hempty : L.decode b = []) (hinstalled : ∀ a ∈ L.logged d, d a = L.view d a)
    (ha : L.Home a) : L.view (update d L.header b) a = L.view d a := by
  have hlogged : L.logged (update d L.header b) = [] := by
    simp [logged, hempty]
  rw [view_of_logged_nil hlogged, update_of_ne ha.1]
  by_cases hmem : a ∈ L.logged d
  · exact hinstalled a hmem
  · simp [view, hmem]

end Layout

end RedoLog
