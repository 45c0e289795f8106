import Mathlib.Data.List.Basic
import Mathlib.Data.List.Nodup
import Mathlib.Logic.Function.Basic
import Mathlib.Tactic

/-!
# Queues linked through a field

A queue in memory is a head pointer and a field that holds the next element.  A
cell is the head pointer or the field of an element; a null pointer ends the
queue.
-/

namespace LinkedQueue

open Function List

variable {B : Type} {next : B → Option B} {head : Option B} {queue : List B}

def Linked (next : B → Option B) : Option B → List B → Prop
  | head, [] => head = none
  | head, b :: rest => head = some b ∧ Linked next (next b) rest

def cell (head : Option B) (next : B → Option B) : Option B → Option B
  | none => head
  | some b => next b

theorem Linked.head_eq (hlinked : Linked next head queue) : head = queue.head? := by
  cases queue with
  | nil => exact hlinked
  | cons b rest => exact hlinked.1

theorem Linked.getElem?_succ (hlinked : Linked next head queue) (n : ℕ) :
    queue[n + 1]? = queue[n]?.bind next := by
  induction queue generalizing head n with
  | nil => rfl
  | cons b rest ih =>
    cases n with
    | zero => simpa [head?_eq_getElem?] using hlinked.2.head_eq.symm
    | succ n => simpa using ih hlinked.2 n

theorem Linked.cell {before after : List B} (hlinked : Linked next head (before ++ after)) :
    cell head next before.getLast? = after.head? := by
  induction before generalizing head with
  | nil => exact hlinked.head_eq
  | cons b rest ih =>
    obtain ⟨rfl, hrest⟩ := hlinked
    cases rest with
    | nil => simpa [LinkedQueue.cell] using hrest.head_eq
    | cons c rest =>
      have hnext := ih hrest
      rw [getLast?_cons_cons]
      cases hlast : (c :: rest).getLast? with
      | none => simp at hlast
      | some d =>
        rw [hlast] at hnext
        exact hnext

theorem Linked.congr {next' : B → Option B} (hlinked : Linked next head queue)
    (hnext : ∀ b ∈ queue, next' b = next b) : Linked next' head queue := by
  induction queue generalizing head with
  | nil => exact hlinked
  | cons b rest ih =>
    refine ⟨hlinked.1, ?_⟩
    rw [hnext b mem_cons_self]
    exact ih hlinked.2 fun c hc => hnext c (mem_cons_of_mem b hc)

variable [DecidableEq B]

theorem Linked.update_of_notMem {b : B} {value : Option B} (hlinked : Linked next head queue)
    (hb : b ∉ queue) : Linked (update next b value) head queue := by
  refine hlinked.congr ?_
  intro c hc
  have hne : c ≠ b := by
    rintro rfl
    exact hb hc
  exact update_of_ne hne ..

theorem Linked.append {b last : B} (hlinked : Linked next head queue) (hnodup : queue.Nodup)
    (hb : b ∉ queue) (hnext : next b = none) (hlast : queue.getLast? = some last) :
    Linked (update next last (some b)) head (queue ++ [b]) := by
  induction queue generalizing head with
  | nil => simp at hlast
  | cons c rest ih =>
    obtain ⟨rfl, hrest⟩ := hlinked
    simp only [mem_cons, not_or] at hb
    rw [nodup_cons] at hnodup
    refine ⟨rfl, ?_⟩
    cases rest with
    | nil =>
      obtain rfl : c = last := by simpa using hlast
      rw [update_self]
      refine ⟨rfl, ?_⟩
      rw [update_of_ne hb.1]
      exact hnext
    | cons d rest =>
      rw [getLast?_cons_cons] at hlast
      have hne : c ≠ last := by
        rintro rfl
        exact hnodup.1 (mem_of_getLast? hlast)
      rw [update_of_ne hne]
      exact ih hrest hnodup.2 hb.2 hlast

omit [DecidableEq B] in
theorem linked_singleton {b : B} (hnext : next b = none) :
    Linked next (some b) [b] := ⟨rfl, hnext⟩

end LinkedQueue
