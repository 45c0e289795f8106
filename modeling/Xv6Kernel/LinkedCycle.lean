import Mathlib.Data.List.Basic
import Mathlib.Logic.Function.Basic
import Mathlib.Tactic

/-!
# Circular singly linked lists

Following the links from any element of a cycle one meets all others and is back.
The list that represents a cycle may start at any of its elements; inserting and
removing are done behind the first one.
-/

namespace LinkedCycle

open Function List

variable {α : Type} {next next' : α → α} {x y a b p d : α} {l m : List α}

def Path (next : α → α) (x : α) : List α → α → Prop
  | [], y => next x = y
  | a :: l, y => next x = a ∧ Path next a l y

def Cycle (next : α → α) : List α → Prop
  | [] => True
  | a :: l => Path next a l a

theorem path_append : Path next x (l ++ a :: m) y ↔ Path next x l a ∧ Path next a m y := by
  induction l generalizing x with
  | nil => rfl
  | cons b l ih =>
    simp only [cons_append, Path, ih]
    exact and_assoc.symm

theorem Path.transfer (h : Path next x l y) (hstart : next' b = next x)
    (hlinks : ∀ a ∈ l, next' a = next a) : Path next' b l y := by
  induction l generalizing x b with
  | nil => exact hstart.trans h
  | cons a l ih =>
    refine ⟨hstart.trans h.1, ?_⟩
    exact ih h.2 (hlinks a mem_cons_self) fun c hc => hlinks c (mem_cons_of_mem a hc)

theorem Cycle.congr (h : Cycle next l) (hlinks : ∀ a ∈ l, next' a = next a) : Cycle next' l := by
  cases l with
  | nil => trivial
  | cons a l =>
    exact Path.transfer h (hlinks a mem_cons_self) fun c hc =>
      hlinks c (mem_cons_of_mem a hc)

theorem Cycle.rotate (h : Cycle next (l ++ m)) : Cycle next (m ++ l) := by
  cases l with
  | nil => rwa [append_nil]
  | cons a l =>
    cases m with
    | nil => rwa [append_nil] at h
    | cons b m =>
      have hpath := path_append.mp h
      exact path_append.mpr ⟨hpath.2, hpath.1⟩

theorem Path.map_next (h : Path next x l y) : (x :: l).map next = l ++ [y] := by
  induction l generalizing x with
  | nil => exact congrArg (fun z => [z]) h
  | cons a l ih => rw [map_cons, ih h.2, h.1, cons_append]

theorem Cycle.next_inj (h : Cycle next l) (hnodup : l.Nodup) (ha : a ∈ l) (hb : b ∈ l)
    (heq : next a = next b) : a = b := by
  cases l with
  | nil => exact absurd ha not_mem_nil
  | cons c l =>
    have hmap : ((c :: l).map next).Nodup := by
      rw [Path.map_next h]
      exact (perm_append_singleton c l).nodup_iff.mpr hnodup
    exact inj_on_of_nodup_map hmap ha hb heq

section Change

variable [DecidableEq α]

theorem Cycle.insert (h : Cycle next (p :: l)) (hp : p ∉ l) (hb : b ∉ p :: l) :
    Cycle (update (update next b (next p)) p b) (p :: b :: l) := by
  have hne : b ≠ p := by
    rintro rfl
    exact hb mem_cons_self
  refine ⟨update_self .., Path.transfer h ?_ ?_⟩
  · rw [update_of_ne hne, update_self]
  · intro c hc
    have hcp : c ≠ p := by
      rintro rfl
      exact hp hc
    have hcb : c ≠ b := by
      rintro rfl
      exact hb (mem_cons_of_mem p hc)
    rw [update_of_ne hcp, update_of_ne hcb]

theorem Cycle.remove (h : Cycle next (p :: d :: l)) (hp : p ∉ l) :
    Cycle (update next p (next d)) (p :: l) := by
  refine Path.transfer h.2 (update_self ..) ?_
  intro c hc
  have hcp : c ≠ p := by
    rintro rfl
    exact hp hc
  exact update_of_ne hcp ..

end Change

def walk (next : α → α) (test : α → Bool) : ℕ → α → Option α
  | 0, _ => none
  | fuel + 1, x => if test x then some x else walk next test fuel (next x)

theorem walk_path {test : α → Bool} {fuel : ℕ} (h : Path next x l y)
    (hx : test x = false) (hl : ∀ c ∈ l, test c = false) (hy : test y = true)
    (hfuel : l.length + 2 ≤ fuel) : walk next test fuel x = some y := by
  induction l generalizing x fuel with
  | nil =>
    obtain ⟨fuel, rfl⟩ := Nat.exists_eq_add_of_le' hfuel
    have hnext : next x = y := h
    simp [walk, hx, hnext, hy]
  | cons c l ih =>
    obtain ⟨fuel, rfl⟩ := Nat.exists_eq_add_of_le' (show 1 ≤ fuel by omega)
    rw [length_cons] at hfuel
    simp only [walk, hx, Bool.false_eq_true, if_false]
    rw [h.1]
    exact ih h.2 (hl c mem_cons_self) (fun d hd => hl d (mem_cons_of_mem c hd)) (by omega)

theorem Cycle.walk {test : α → Bool} {fuel : ℕ} (h : Cycle next (x :: l))
    (hy : y ∈ x :: l) (htest : ∀ z ∈ x :: l, test z = true ↔ z = y)
    (hfuel : l.length < fuel) : walk next test fuel x = some y := by
  have hfalse : ∀ z ∈ x :: l, z ≠ y → test z = false := by
    intro z hz hne
    exact eq_false_of_ne_true fun hpass => hne ((htest z hz).mp hpass)
  by_cases hxy : x = y
  · subst y
    obtain ⟨fuel, rfl⟩ := Nat.exists_eq_add_of_le' (Nat.zero_lt_of_lt hfuel)
    simp [LinkedCycle.walk, (htest x hy).mpr rfl]
  · have hmem : y ∈ l := (mem_cons.mp hy).resolve_left (Ne.symm hxy)
    obtain ⟨before, after, hsplit, hfirst⟩ := eq_append_cons_of_mem hmem
    rw [hsplit] at h
    refine walk_path (path_append.mp h).1 (hfalse x mem_cons_self hxy) ?_ ((htest y hy).mpr rfl) ?_
    · intro c hc
      refine hfalse c ?_ ?_
      · rw [hsplit]
        exact mem_cons_of_mem x (mem_append_left _ hc)
      · rintro rfl
        exact hfirst hc
    · rw [hsplit, length_append, length_cons] at hfuel
      omega

end LinkedCycle
