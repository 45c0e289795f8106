import Mathlib.Data.List.Nodup
import Mathlib.Logic.Function.Basic
import Mathlib.Tactic

/-!
# Circular doubly linked lists

A list in memory is linked through the fields `next` and `prev` of its elements
and of a sentinel; `none` is the sentinel.  Going along `next` from the sentinel
one meets every element once and is back, and going along `prev` one meets them in
the opposite order.
-/

namespace CircularList

open Function List

variable {α : Type}

/-- The pointers `next` and `prev` of the elements and of the sentinel. -/
structure Links (α : Type) where
  next : Option α → Option α
  prev : Option α → Option α

/-- Between `x` and `y` lie exactly the elements of a list. -/
def Segment (m : Links α) (x : Option α) : List α → Option α → Prop
  | [], y => m.next x = y ∧ m.prev y = x
  | b :: rest, y => m.next x = some b ∧ m.prev (some b) = x ∧ Segment m (some b) rest y

/-- The elements of a circular list, from the sentinel along `next`. -/
structure Ring (m : Links α) (l : List α) : Prop where
  segment : Segment m none l none
  nodup : l.Nodup

section Segments

variable {m m' : Links α} {x y : Option α} {l l' : List α} {b : α}

theorem segment_append :
    Segment m x (l ++ b :: l') y ↔ Segment m x l (some b) ∧ Segment m (some b) l' y := by
  induction l generalizing x with
  | nil => simp [Segment, and_assoc]
  | cons c rest ih => simp [Segment, ih, and_assoc]

theorem Segment.congr (h : Segment m x l y) (hnext : m'.next x = m.next x)
    (hprev : m'.prev y = m.prev y)
    (hinner : ∀ b ∈ l, m'.next (some b) = m.next (some b) ∧
      m'.prev (some b) = m.prev (some b)) : Segment m' x l y := by
  induction l generalizing x with
  | nil =>
    obtain ⟨hxy, hyx⟩ := h
    exact ⟨hnext.trans hxy, hprev.trans hyx⟩
  | cons c rest ih =>
    obtain ⟨hxc, hcx, hrest⟩ := h
    obtain ⟨hcnext, hcprev⟩ := hinner c mem_cons_self
    refine ⟨hnext.trans hxc, hcprev.trans hcx, ih hrest hcnext ?_⟩
    intro b hb
    exact hinner b (mem_cons_of_mem c hb)

theorem Segment.reverse (h : Segment m x l y) : Segment ⟨m.prev, m.next⟩ y l.reverse x := by
  induction l generalizing x with
  | nil => exact ⟨h.2, h.1⟩
  | cons c rest ih =>
    obtain ⟨hxc, hcx, hrest⟩ := h
    rw [reverse_cons, segment_append]
    exact ⟨ih hrest, hcx, hxc⟩

theorem Segment.prev_eq (h : Segment m x l y) : m.prev y = (l.getLast?.map some).getD x := by
  induction l generalizing x with
  | nil => exact h.2
  | cons c rest ih =>
    obtain ⟨_, _, hrest⟩ := h
    rw [ih hrest, getLast?_cons]
    cases rest.getLast? with
    | none => rfl
    | some d => rfl

theorem Segment.next_eq (h : Segment m x l y) : m.next x = (l.head?.map some).getD y := by
  cases l with
  | nil => exact h.1
  | cons c rest => exact h.1

theorem Ring.next_none (h : Ring m l) : m.next none = l.head? := by
  rw [h.segment.next_eq]
  cases l.head? <;> rfl

theorem ring_nil (hnext : m.next none = none) (hprev : m.prev none = none) : Ring m [] :=
  ⟨⟨hnext, hprev⟩, nodup_nil⟩

end Segments

/-! ## Unlinking and insertion in front -/

section Change

variable [DecidableEq α] {m : Links α} {x y z : Option α} {l : List α} {b : α}

/-- `b->next->prev = b->prev; b->prev->next = b->next`. -/
def unlink (m : Links α) (b : α) : Links α :=
  let prev := Function.update m.prev (m.next (some b)) (m.prev (some b))
  let next := Function.update m.next (prev (some b)) (m.next (some b))
  ⟨next, prev⟩

/-- `b->next = head.next; b->prev = &head; head.next->prev = b; head.next = b`. -/
def pushFront (m : Links α) (b : α) : Links α :=
  let next := Function.update m.next (some b) (m.next none)
  let prev := Function.update m.prev (some b) none
  let prev := Function.update prev (next none) (some b)
  ⟨Function.update next none (some b), prev⟩

theorem Segment.retarget {w : Option α} (h : Segment m x l y) (hw : m.prev y = w)
    (hx : x ∉ l.map some) (hl : l.Nodup) (hz : z ∉ l.map some) :
    Segment ⟨update m.next w z, update m.prev z w⟩ x l z := by
  induction l generalizing x with
  | nil =>
    obtain ⟨_, hyx⟩ := h
    obtain rfl : x = w := hyx.symm.trans hw
    exact ⟨update_self .., update_self ..⟩
  | cons c rest ih =>
    obtain ⟨hxc, hcx, hrest⟩ := h
    rw [map_cons, mem_cons, not_or] at hx hz
    rw [nodup_cons] at hl
    have hwmem : w = some c ∨ w ∈ rest.map some := by
      rw [← hw, hrest.prev_eq]
      cases hlast : rest.getLast? with
      | none => exact Or.inl rfl
      | some d =>
        exact Or.inr (mem_map_of_mem (mem_of_getLast? hlast))
    have hxw : x ≠ w := by
      rintro rfl
      rcases hwmem with hc | hmem
      · exact hx.1 hc
      · exact hx.2 hmem
    refine ⟨?_, ?_, ih hrest ?_ hl.2 hz.2⟩
    · simp only [update_of_ne hxw]
      exact hxc
    · simp only [update_of_ne (Ne.symm hz.1)]
      exact hcx
    · simpa using hl.1

theorem Ring.unlink {before after : List α} (h : Ring m (before ++ b :: after)) :
    Ring (unlink m b) (before ++ after) := by
  have hnodup := h.nodup
  rw [nodup_append, nodup_cons] at hnodup
  obtain ⟨hbefore, ⟨hbafter, hafter⟩, hapart⟩ := hnodup
  obtain ⟨hfirst, hsecond⟩ := segment_append.mp h.segment
  have hne : m.next (some b) ≠ some b := by
    rw [hsecond.next_eq]
    cases after with
    | nil => simp
    | cons c rest =>
      intro heq
      simp only [head?_cons, Option.map_some, Option.getD_some, Option.some.injEq] at heq
      exact hbafter (heq ▸ mem_cons_self)
  have hlinks : CircularList.unlink m b =
      ⟨update m.next (m.prev (some b)) (m.next (some b)),
        update m.prev (m.next (some b)) (m.prev (some b))⟩ := by
    simp only [CircularList.unlink, update_of_ne hne.symm]
  have hend : m.next (some b) ∉ before.map some := by
    rw [hsecond.next_eq]
    cases after with
    | nil => simp
    | cons c rest =>
      intro hmem
      simp only [head?_cons, Option.map_some, Option.getD_some, mem_map,
        Option.some.injEq, exists_eq_right] at hmem
      exact hapart c hmem c (by simp) rfl
  have hstart : ∀ d ∈ after, some d ≠ m.prev (some b) := by
    intro d hd heq
    rw [hfirst.prev_eq] at heq
    cases hlast : before.getLast? with
    | none => simp [hlast] at heq
    | some e =>
      simp only [hlast, Option.map_some, Option.getD_some, Option.some.injEq] at heq
      exact hapart e (mem_of_getLast? hlast) d (mem_cons_of_mem b hd) heq.symm
  have hjoined := hfirst.retarget rfl (by simp) hbefore hend
  refine ⟨?_, ?_⟩
  · rw [hlinks]
    cases after with
    | nil =>
      obtain ⟨hnext, _⟩ := hsecond
      rw [append_nil]
      rw [hnext] at hjoined ⊢
      exact hjoined
    | cons c rest =>
      obtain ⟨hnext, hprev, hrest⟩ := hsecond
      rw [hnext] at hjoined ⊢
      rw [nodup_cons] at hafter
      refine segment_append.mpr ⟨hjoined, hrest.congr ?_ ?_ ?_⟩
      · exact update_of_ne (hstart c mem_cons_self) ..
      · simp
      · intro d hd
        have hdc : some d ≠ some c := by
          rintro ⟨⟩
          exact hafter.1 hd
        exact ⟨update_of_ne (hstart d (mem_cons_of_mem c hd)) .., update_of_ne hdc ..⟩
  · rw [nodup_append]
    refine ⟨hbefore, hafter, ?_⟩
    intro c hc d hd
    exact hapart c hc d (mem_cons_of_mem b hd)

theorem Ring.pushFront (h : Ring m l) (hb : b ∉ l) : Ring (pushFront m b) (b :: l) := by
  have hhead : m.next none ≠ some b := by
    rw [h.next_none]
    intro heq
    exact hb (mem_of_head? heq)
  have hlinks : CircularList.pushFront m b =
      ⟨update (update m.next (some b) (m.next none)) none (some b),
        update (update m.prev (some b) none) (m.next none)
          (some b)⟩ := by
    simp [CircularList.pushFront]
  have hother : ∀ c ∈ l, some c ≠ some b := by
    rintro c hc ⟨⟩
    exact hb hc
  refine ⟨?_, nodup_cons.mpr ⟨hb, h.nodup⟩⟩
  rw [hlinks]
  refine ⟨?_, ?_, ?_⟩
  · simp only [update_self]
  · simp only [update_of_ne hhead.symm, update_self]
  · have hsegment := h.segment
    have hnodup := h.nodup
    cases l with
    | nil =>
      obtain ⟨hnext, _⟩ := hsegment
      simp [Segment, hnext]
    | cons c rest =>
      obtain ⟨hnext, _, hrest⟩ := hsegment
      rw [nodup_cons] at hnodup
      have hcb := hother c mem_cons_self
      rw [hnext]
      refine ⟨by simp, by simp, hrest.congr ?_ ?_ ?_⟩
      · simp [update_of_ne hcb]
      · simp
      · intro d hd
        have hdb := hother d (mem_cons_of_mem c hd)
        have hdc : some d ≠ some c := by
          rintro ⟨⟩
          exact hnodup.1 hd
        simp [update_of_ne hdb, update_of_ne hdc]

theorem Ring.foldl_pushFront {bs : List α} (h : Ring m l) (hnodup : bs.Nodup)
    (hapart : ∀ b ∈ bs, b ∉ l) : Ring (bs.foldl CircularList.pushFront m) (bs.reverse ++ l) := by
  induction bs generalizing m l with
  | nil => exact h
  | cons b rest ih =>
    rw [nodup_cons] at hnodup
    rw [foldl_cons, reverse_cons, append_assoc]
    refine ih (h.pushFront (hapart b mem_cons_self)) hnodup.2 ?_
    intro c hc hmem
    rcases mem_cons.mp hmem with rfl | hmem
    · exact hnodup.1 hc
    · exact hapart c (mem_cons_of_mem b hc) hmem

end Change

section Search

/-- The loop `for(b = start; b != &head; b = b->link)` that is left at the first
element that passes a test.  It gives up when the fuel runs out. -/
def search (link : Option α → Option α) (test : α → Bool) :
    ℕ → Option α → Option (Option α)
  | 0, _ => none
  | _ + 1, none => some none
  | fuel + 1, some b => if test b then some (some b) else search link test fuel (link (some b))

variable {m : Links α} {test : α → Bool} {l : List α} {fuel : ℕ}

theorem search_segment {x : Option α} (h : Segment m x l none) (hfuel : l.length < fuel) :
    search m.next test fuel (m.next x) = some (l.find? test) := by
  induction l generalizing x fuel with
  | nil =>
    obtain ⟨fuel, rfl⟩ := Nat.exists_eq_add_of_lt hfuel
    rw [h.1]
    rfl
  | cons c rest ih =>
    obtain ⟨hxc, _, hrest⟩ := h
    cases fuel with
    | zero => exact absurd hfuel (Nat.not_lt_zero _)
    | succ fuel =>
      rw [hxc, find?_cons]
      simp only [search]
      cases htest : test c with
      | true => rfl
      | false => exact ih hrest (Nat.lt_of_succ_lt_succ hfuel)

theorem Ring.search_next (h : Ring m l)
    (hfuel : l.length < fuel) : search m.next test fuel (m.next none) = some (l.find? test) :=
  search_segment h.segment hfuel

theorem Ring.search_prev (h : Ring m l) (hfuel : l.length < fuel) :
    search m.prev test fuel (m.prev none) = some (l.reverse.find? test) :=
  search_segment h.segment.reverse (by simpa using hfuel)

end Search

section Recency

/-- The last event of `b` is older than that of `c`: neither has had one and `b`
was first by `r`, or `c` has had one since the last of `b`, if any. -/
def Older (r : α → α → Prop) (events : List α) (b c : α) : Prop :=
  (b ∉ events ∧ c ∉ events ∧ r b c) ∨
    ∃ before after, events = before ++ after ∧ b ∉ after ∧ c ∈ after

theorem Older.concat {r : α → α → Prop} {events : List α} {b c x : α} (h : Older r events b c)
    (hb : b ≠ x) (hc : c ≠ x) : Older r (events ++ [x]) b c := by
  rcases h with ⟨hb', hc', hr⟩ | ⟨before, after, rfl, hb', hc'⟩
  · exact Or.inl ⟨by simp [hb', hb], by simp [hc', hc], hr⟩
  · exact Or.inr ⟨before, after ++ [x], by simp, by simp [hb', hb], by simp [hc']⟩

variable [DecidableEq α]

def moveToFront (l : List α) (b : α) : List α := b :: l.erase b

/-- The order of a list after some elements have been moved to its front, one
after the other. -/
def frontOrder (init events : List α) : List α := events.foldl moveToFront init

theorem frontOrder_concat (init events : List α) (b : α) :
    frontOrder init (events ++ [b]) = moveToFront (frontOrder init events) b := by
  simp [frontOrder]

theorem moveToFront_perm {l : List α} {b : α} (hb : b ∈ l) : (moveToFront l b).Perm l :=
  (perm_cons_erase hb).symm

theorem Ring.moveToFront {m : Links α} {l : List α} {b : α} (h : Ring m l) (hb : b ∈ l) :
    Ring (CircularList.pushFront (CircularList.unlink m b) b)
      (CircularList.moveToFront l b) := by
  obtain ⟨before, after, rfl⟩ := append_of_mem hb
  have hnodup := h.nodup
  have hbefore : b ∉ before := by
    intro hmem
    exact (nodup_append.mp hnodup).2.2 b hmem b mem_cons_self rfl
  have herase : (before ++ b :: after).erase b = before ++ after := by
    rw [erase_append_right _ hbefore, erase_cons_head]
  rw [CircularList.moveToFront, herase]
  apply h.unlink.pushFront
  rw [← herase]
  exact hnodup.not_mem_erase

theorem frontOrder_perm {init : List α} (hall : ∀ b, b ∈ init) (events : List α) :
    (frontOrder init events).Perm init := by
  induction events using reverseRecOn with
  | nil => exact List.Perm.refl _
  | append_singleton events b ih =>
    rw [frontOrder_concat]
    exact (moveToFront_perm (ih.mem_iff.mpr (hall b))).trans ih

theorem frontOrder_older {r : α → α → Prop} {init events : List α}
    (hinit : init.reverse.Pairwise r) (hnodup : init.Nodup) (hall : ∀ b, b ∈ init) :
    (frontOrder init events).reverse.Pairwise (Older r events) := by
  induction events using reverseRecOn with
  | nil =>
    refine hinit.imp ?_
    intro b c hr
    exact Or.inl ⟨by simp, by simp, hr⟩
  | append_singleton events x ih =>
    have hperm := frontOrder_perm hall events
    have hnodup' := hperm.nodup_iff.mpr hnodup
    have hne : ∀ b ∈ (frontOrder init events).erase x, b ≠ x := by
      rintro b hb rfl
      exact hnodup'.not_mem_erase hb
    rw [frontOrder_concat, moveToFront, reverse_cons, pairwise_append]
    refine ⟨?_, by simp, ?_⟩
    · have hsub : ((frontOrder init events).erase x).reverse.Sublist
          (frontOrder init events).reverse :=
        reverse_sublist.mpr erase_sublist
      refine (ih.sublist hsub).imp_of_mem ?_
      intro b c hb hc holder
      exact holder.concat (hne b (mem_reverse.mp hb)) (hne c (mem_reverse.mp hc))
    · intro b hb c hc
      rw [mem_singleton] at hc
      subst c
      exact Or.inr ⟨events, [x], rfl, by simpa using hne b (mem_reverse.mp hb), by simp⟩

end Recency

end CircularList
